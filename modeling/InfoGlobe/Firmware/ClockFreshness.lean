import InfoGlobe.Library.StepSystem
import InfoGlobe.Firmware.Animations

/-!
Freshness of the clock. A call redraws when the minute field differs from the last one or when the
colon changes; between calls any time may pass. The hour is not compared, so a jump by whole hours
goes unseen until the colon changes.
-/

namespace InfoGlobe.Animations
open StepSystem

/-- The clock between two calls: its static variables, the time of the last call and the last
frame that it sent. -/
structure Clock where
  vars : ClockState
  time : Option Tm
  shown : Option MsgBuffer

def Clock.start : Clock where
  vars := .initial
  time := none
  shown := none

/-- What a call is given: the current time and the tick count. -/
structure Reading where
  timeinfo : Tm
  now : UInt32

/-- One call of the animation, at any time after the last one or before it. -/
def clockStep (ticks : TickMacros) (c : Clock) (r : Reading) : Option Clock :=
  let called := runAnimationTime1 ticks c.vars r.timeinfo r.now
  some { vars := called.1, time := some r.timeinfo, shown := called.2.or c.shown }

/-- The characters of a frame of the clock, behind the two bytes of its header. -/
def frameText (frame : MsgBuffer) : List UInt8 := (frame.drop 2).take 8

/-- The frame on display tells the time of the last call, and the colon as it is now. -/
def Fresh (c : Clock) : Prop :=
  c.shown.map frameText = c.time.map fun time => formatTime time c.vars.blankColon

instance (c : Clock) : Decidable (Fresh c) := inferInstanceAs (Decidable (_ = _))

/-- The colon is to be blanked, or to be shown again. -/
def ColonDue (ticks : TickMacros) (s : ClockState) (r : Reading) : Prop :=
  if s.blankColon = false then
    r.timeinfo.tmSec % 3 = 0 ∧ (r.timeinfo.tmSec : Int) ≠ s.blankSecond
  else ticks.pdMsToTicks 300 ≤ r.now - s.blankTick

instance (ticks : TickMacros) (s : ClockState) (r : Reading) : Decidable (ColonDue ticks s r) :=
  inferInstanceAs (Decidable (ite _ _ _))

/-- A new hour comes with another minute, or with a change of the colon. -/
def HourSeen (ticks : TickMacros) (c : Clock) (r : Reading) : Prop :=
  ∀ last ∈ c.time, r.timeinfo.tmMin = last.tmMin → ¬ColonDue ticks c.vars r →
    r.timeinfo.tmHour = last.tmHour

/-! ### The text -/

@[simp] theorem length_twoDigits (n : Nat) : (twoDigits n).length = 2 := rfl

theorem length_formatTime (timeinfo : Tm) (blankColon : Bool) :
    (formatTime timeinfo blankColon).length = 8 := by
  have hcolon : (if blankColon then asciiBytes " " else asciiBytes ":").length = 1 := by
    cases blankColon <;> rfl
  have hhalf : (if timeinfo.tmHour < 12 then asciiBytes " AM" else asciiBytes " PM").length = 3 := by
    split <;> rfl
  simp only [formatTime, List.length_append, length_twoDigits, hcolon, hhalf]

/-- The clock face tells every hour of the day from every other. -/
theorem hour_of_face : ∀ h h' : Fin 24,
    twoDigits (if h.val % 12 = 0 then 12 else h.val % 12) =
        twoDigits (if h'.val % 12 = 0 then 12 else h'.val % 12) →
      ((if h.val < 12 then asciiBytes " AM" else asciiBytes " PM") =
        if h'.val < 12 then asciiBytes " AM" else asciiBytes " PM") → h = h' := by
  decide +kernel

theorem tmHour_of_formatTime {a b : Tm} {blankColon : Bool}
    (h : formatTime a blankColon = formatTime b blankColon) : a.tmHour = b.tmHour := by
  simp only [formatTime, List.append_assoc] at h
  obtain ⟨hhour, hrest⟩ := List.append_inj h rfl
  obtain ⟨_, hrest⟩ := List.append_inj hrest rfl
  obtain ⟨_, hhalf⟩ := List.append_inj hrest rfl
  exact congrArg Fin.val (hour_of_face ⟨a.tmHour, a.hour_lt⟩ ⟨b.tmHour, b.hour_lt⟩ hhour hhalf)

theorem frameText_clock (timeinfo : Tm) (blankColon : Bool) :
    frameText (stringWithBlinkShift (formatTime timeinfo blankColon) 8 0 8) =
      formatTime timeinfo blankColon := by
  have hlen := length_formatTime timeinfo blankColon
  have htake : ∀ k ≥ 8, (formatTime timeinfo blankColon).take k = formatTime timeinfo blankColon :=
    fun k hk => List.take_of_length_le (by omega)
  simp [frameText, stringWithBlinkShift, sendStringToQueue, htake, hlen, List.take_append]

/-! ### One call -/

section Call
variable {ticks : TickMacros} {c d : Clock} {r : Reading}

theorem blinkColon_of_due {s : ClockState} (h : ColonDue ticks s r) :
    (blinkColon ticks s r.timeinfo r.now).2 = true := by
  by_cases hblank : s.blankColon = false
  · rw [ColonDue, if_pos hblank] at h
    rw [blinkColon, if_pos hblank, if_pos h]
  · rw [ColonDue, if_neg hblank] at h
    rw [blinkColon, if_neg hblank, if_pos h]

theorem blinkColon_of_not_due {s : ClockState} (h : ¬ColonDue ticks s r) :
    blinkColon ticks s r.timeinfo r.now = (s, false) := by
  by_cases hblank : s.blankColon = false
  · rw [ColonDue, if_pos hblank] at h
    rw [blinkColon, if_pos hblank, if_neg h]
  · rw [ColonDue, if_neg hblank] at h
    rw [blinkColon, if_neg hblank, if_neg h]

theorem runAnimationTime1_of_draw {s : ClockState}
    (h : ColonDue ticks s r ∨ (r.timeinfo.tmMin : Int) ≠ s.lastMinute) :
    runAnimationTime1 ticks s r.timeinfo r.now =
      ({ (blinkColon ticks s r.timeinfo r.now).1 with lastMinute := r.timeinfo.tmMin },
        some (stringWithBlinkShift
          (formatTime r.timeinfo (blinkColon ticks s r.timeinfo r.now).1.blankColon) 8 0 8)) := by
  have hdraw : (r.timeinfo.tmMin : Int) ≠ (blinkColon ticks s r.timeinfo r.now).1.lastMinute ∨
      (blinkColon ticks s r.timeinfo r.now).2 = true := by
    by_cases hdue : ColonDue ticks s r
    · exact .inr (blinkColon_of_due hdue)
    · rw [blinkColon_of_not_due hdue]
      exact .inl (h.resolve_left hdue)
  exact if_pos hdraw

theorem runAnimationTime1_of_still {s : ClockState} (hdue : ¬ColonDue ticks s r)
    (hmin : (r.timeinfo.tmMin : Int) = s.lastMinute) :
    runAnimationTime1 ticks s r.timeinfo r.now = (s, none) := by
  simp only [runAnimationTime1, blinkColon_of_not_due hdue]
  exact if_neg (by simp [hmin])

/-- A call that draws shows its own time. -/
theorem fresh_of_drawn (h : clockStep ticks c r = some d)
    (hdraw : ColonDue ticks c.vars r ∨ (r.timeinfo.tmMin : Int) ≠ c.vars.lastMinute) :
    Fresh d ∧ d.time = some r.timeinfo ∧ d.vars.lastMinute = r.timeinfo.tmMin := by
  rw [clockStep, runAnimationTime1_of_draw hdraw] at h
  obtain rfl := Option.some.inj h
  exact ⟨congrArg some (frameText_clock _ _), rfl, rfl⟩

/-- A call that does not draw changes nothing. -/
theorem eq_of_not_drawn (h : clockStep ticks c r = some d) (hdue : ¬ColonDue ticks c.vars r)
    (hmin : (r.timeinfo.tmMin : Int) = c.vars.lastMinute) :
    d = { c with time := some r.timeinfo } := by
  rw [clockStep, runAnimationTime1_of_still hdue hmin] at h
  exact (Option.some.inj h).symm

end Call

/-! ### All calls -/

/-- The clock as it was left by a call, or before the first one. -/
inductive Kept (c : Clock) : Prop
  | start (first : c = Clock.start)
  | called (time : Tm) (called : c.time = some time) (minute : c.vars.lastMinute = time.tmMin)
      (fresh : Fresh c)

section Calls
variable {ticks : TickMacros}

theorem Kept.fresh {c : Clock} (h : Kept c) : Fresh c := by
  cases h with
  | start hfirst => rw [hfirst, Fresh]; rfl
  | called time _ _ hfresh => exact hfresh

theorem kept_step (c : Clock) (r : Reading) (d : Clock) (h : Kept c) (hr : HourSeen ticks c r)
    (hstep : clockStep ticks c r = some d) : Kept d := by
  by_cases hdraw : ColonDue ticks c.vars r ∨ (r.timeinfo.tmMin : Int) ≠ c.vars.lastMinute
  · obtain ⟨hfresh, htime, hminute⟩ := fresh_of_drawn hstep hdraw
    exact .called r.timeinfo htime hminute hfresh
  · obtain ⟨hdue, hsame⟩ := not_or.mp hdraw
    have hmin := not_not.mp hsame
    obtain rfl := eq_of_not_drawn hstep hdue hmin
    cases h with
    | start hfirst =>
        -- the first call draws, whatever the time
        rw [hfirst] at hmin
        exact absurd hmin (by simp [Clock.start, ClockState.initial])
    | called last hlast hminute hfresh =>
        have hmin' : r.timeinfo.tmMin = last.tmMin := by omega
        have hhour := hr last hlast hmin' hdue
        refine .called r.timeinfo rfl hmin.symm ?_
        have hface : formatTime r.timeinfo c.vars.blankColon = formatTime last c.vars.blankColon := by
          simp only [formatTime, hmin', hhour]
        rw [Fresh, hlast] at hfresh
        rw [Fresh, hfresh]
        exact congrArg some hface.symm

theorem hourSeen_of_fresh (c : Clock) (r : Reading) (d : Clock) (h : Kept c)
    (hstep : clockStep ticks c r = some d) (hd : Fresh d) : HourSeen ticks c r := by
  intro last hlast hmin hdue
  cases h with
  | start hfirst =>
      rw [hfirst] at hlast
      exact absurd hlast (by simp [Clock.start])
  | called time htime hminute hfresh =>
      obtain rfl : time = last := Option.some.inj (htime.symm.trans hlast)
      obtain rfl := eq_of_not_drawn hstep hdue (by omega)
      rw [Fresh, htime] at hfresh
      rw [Fresh, hfresh] at hd
      exact (tmHour_of_formatTime (Option.some.inj hd)).symm

/-- The clock is right after every call, if and only if no hour passes unseen. -/
theorem clock_fresh_iff (ticks : TickMacros) (calls : List Reading) :
    Always (clockStep ticks) Fresh Clock.start calls ↔
      EachStep (clockStep ticks) (HourSeen ticks) Clock.start calls :=
  always_iff_eachStep (fun _ h => h.fresh) kept_step hourSeen_of_fresh (.start rfl) calls

end Calls

def milliseconds : TickMacros where
  pdMsToTicks := UInt32.ofNat
  pdTicksToMs := id

/-- The display is off from 10:05:01 to 11:05:01. -/
theorem hour_unseen :
    ¬Always (clockStep milliseconds) Fresh Clock.start
      [⟨⟨10, 5, 1, by decide, by decide, by decide⟩, 0⟩,
        ⟨⟨11, 5, 1, by decide, by decide, by decide⟩, 3600000⟩] := by
  intro h
  have hlast := Always.last h rfl
  exact absurd hlast (by decide +kernel)

end InfoGlobe.Animations
