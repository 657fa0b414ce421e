import InfoGlobe.Firmware.MessageType

/-!
The frames of the animations: a two-byte header, the text, and the blink and shift positions. The
clock redraws on a minute change and when its colon blinks; what it remembers between calls are the
four static variables of the source.
-/

namespace InfoGlobe.Animations

/-- The tick macros of the operating system, whose definitions depend on its configuration. -/
structure TickMacros where
  pdMsToTicks : Nat → UInt32
  pdTicksToMs : UInt32 → UInt32

/-- The fields of `struct tm` that the clock reads, in the ranges `localtime_r` gives them. -/
structure Tm where
  tmHour : Nat
  tmMin : Nat
  tmSec : Nat
  hour_lt : tmHour < 24
  min_lt : tmMin < 60
  sec_le : tmSec ≤ 60

def stringWithBlinkShift (strBuff : List UInt8) (strLen : Nat) (blinkIdx shiftIdx : UInt8) :
    MsgBuffer :=
  sendStringToQueue ([0x05, 0x00] ++ strBuff.take strLen ++ [0x00, blinkIdx, shiftIdx])
    (strLen + 5)

def singleStringRotate (strBuff : List UInt8) (strLen : Nat) : MsgBuffer :=
  sendStringToQueue ([0] ++ strBuff.take strLen ++ [0]) (strLen + 2)

/-- The frames of `run_boot_animation`. -/
def runBootAnimation : List MsgBuffer :=
  let bootMsg := asciiBytes "< Booting >"
  let fwVersion := asciiBytes "Ver: 0.6"
  [stringWithBlinkShift bootMsg bootMsg.length 0x0C (UInt8.ofNat bootMsg.length),
    stringWithBlinkShift fwVersion fwVersion.length 0x00 (UInt8.ofNat fwVersion.length)]

def twoDigits (n : Nat) : List UInt8 := [UInt8.ofNat (48 + n / 10), UInt8.ofNat (48 + n % 10)]

/-- `format_time`: `strftime` with "%I:%M %p", and the colon overwritten when it is blanked. -/
def formatTime (timeinfo : Tm) (blankColon : Bool) : List UInt8 :=
  let hour := if timeinfo.tmHour % 12 = 0 then 12 else timeinfo.tmHour % 12
  let colon := if blankColon then asciiBytes " " else asciiBytes ":"
  let half := if timeinfo.tmHour < 12 then asciiBytes " AM" else asciiBytes " PM"
  twoDigits hour ++ colon ++ twoDigits timeinfo.tmMin ++ half

structure ClockState where
  lastMinute : Int
  blankSecond : Int
  blankTick : UInt32
  blankColon : Bool

def ClockState.initial : ClockState where
  lastMinute := -1
  blankSecond := -1
  blankTick := 0
  blankColon := false

/-- The colon logic of `run_animation_time_1`, and whether it asks for a redraw. -/
def blinkColon (ticks : TickMacros) (s : ClockState) (timeinfo : Tm) (now : UInt32) :
    ClockState × Bool :=
  if s.blankColon = false then
    if timeinfo.tmSec % 3 = 0 ∧ (timeinfo.tmSec : Int) ≠ s.blankSecond then
      ({ s with blankSecond := timeinfo.tmSec, blankTick := now, blankColon := true }, true)
    else (s, false)
  else if ticks.pdMsToTicks 300 ≤ now - s.blankTick then ({ s with blankColon := false }, true)
  else (s, false)

/-- One call of `run_animation_time_1` at a time and a tick count, with the frame it sends. -/
def runAnimationTime1 (ticks : TickMacros) (s : ClockState) (timeinfo : Tm) (now : UInt32) :
    ClockState × Option MsgBuffer :=
  let (s', blankDraw) := blinkColon ticks s timeinfo now
  if (timeinfo.tmMin : Int) ≠ s'.lastMinute ∨ blankDraw = true then
    ({ s' with lastMinute := timeinfo.tmMin },
      some (stringWithBlinkShift (formatTime timeinfo s'.blankColon) 8 0 8))
  else (s', none)

/-- The frame the update server shows when the image starts to arrive. -/
def otaStartFrame : MsgBuffer :=
  let otaStartMsg := asciiBytes "< Starting OTA >"
  stringWithBlinkShift otaStartMsg otaStartMsg.length (UInt8.ofNat (otaStartMsg.length + 2))
    (UInt8.ofNat (otaStartMsg.length + 2))

/-- The progress frame, `elapsed` being `pdTICKS_TO_MS` of the running time. -/
def otaProgressFrame (elapsed : UInt32) : MsgBuffer :=
  let runtime := elapsed.toNat / 1000
  let progressMsg := asciiBytes "Updating... (" ++ asciiBytes runtime.repr ++ asciiBytes "s)"
  stringWithBlinkShift progressMsg progressMsg.length 0 (UInt8.ofNat (progressMsg.length + 4))

/-- One frame of the countdown of `system_reboot`. -/
def rebootFrame (i : Nat) : MsgBuffer :=
  let rebootMsg := asciiBytes "Reboot in " ++ asciiBytes i.repr
  stringWithBlinkShift rebootMsg rebootMsg.length 0 (UInt8.ofNat rebootMsg.length)

def systemRebootFrames : List MsgBuffer := [rebootFrame 3, rebootFrame 2, rebootFrame 1]

theorem length_stringWithBlinkShift_le (strBuff : List UInt8) (strLen : Nat)
    (blinkIdx shiftIdx : UInt8) :
    (stringWithBlinkShift strBuff strLen blinkIdx shiftIdx).length ≤ strLen + 5 :=
  length_sendStringToQueue_le _ _

theorem length_singleStringRotate_le (strBuff : List UInt8) (strLen : Nat) :
    (singleStringRotate strBuff strLen).length ≤ strLen + 2 :=
  length_sendStringToQueue_le _ _

/-- The clock sends one frame at most, of eight characters of text. -/
theorem length_runAnimationTime1_le {ticks : TickMacros} {s : ClockState} {timeinfo : Tm}
    {now : UInt32} {frame : MsgBuffer}
    (h : (runAnimationTime1 ticks s timeinfo now).2 = some frame) : frame.length ≤ 13 := by
  simp only [runAnimationTime1] at h
  split at h
  · obtain rfl := Option.some.inj h
    exact length_stringWithBlinkShift_le _ _ _ _
  · exact absurd h (by simp)

end InfoGlobe.Animations
