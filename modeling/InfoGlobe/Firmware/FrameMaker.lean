import Mathlib.Data.List.Induction
import InfoGlobe.Firmware.ClockFreshness

/-!
The loop of the frame maker. A falling edge of the button pin switches the clock on or off, and the
clock runs in the turns in which it is on; in the others its static variables stay as they are.
-/

namespace InfoGlobe.FrameMaker
open Animations

/-- What a turn of the loop reads: the level of the pin, and what the clock would read. -/
structure Turn where
  currIoLevel : Bool
  reading : Reading

structure LoopVars where
  prevIoLevel : Bool
  timeOn : Bool
  clock : ClockState

def LoopVars.initial : LoopVars where
  prevIoLevel := true
  timeOn := false
  clock := .initial

/-- `curr_io_level==0 && prev_io_level==true`. -/
def fallingEdge (prevIoLevel currIoLevel : Bool) : Bool := !currIoLevel && prevIoLevel

/-- One turn of `while(1)`, with the frame it sends. -/
def loopTurn (ticks : TickMacros) (v : LoopVars) (t : Turn) : LoopVars × Option MsgBuffer :=
  let timeOn := if fallingEdge v.prevIoLevel t.currIoLevel then !v.timeOn else v.timeOn
  if timeOn then
    let called := runAnimationTime1 ticks v.clock t.reading.timeinfo t.reading.now
    ({ prevIoLevel := t.currIoLevel, timeOn := timeOn, clock := called.1 }, called.2)
  else ({ v with prevIoLevel := t.currIoLevel, timeOn := timeOn }, none)

def loopAfter (ticks : TickMacros) (v : LoopVars) (turns : List Turn) : LoopVars :=
  turns.foldl (fun v t => (loopTurn ticks v t).1) v

def loopFrames (ticks : TickMacros) : LoopVars → List Turn → List MsgBuffer
  | _, [] => []
  | v, t :: ts => (loopTurn ticks v t).2.toList ++ loopFrames ticks (loopTurn ticks v t).1 ts

/-! ### The clock on its own -/

def clockVars (ticks : TickMacros) (s : ClockState) (readings : List Reading) : ClockState :=
  readings.foldl (fun s r => (runAnimationTime1 ticks s r.timeinfo r.now).1) s

def clockFrames (ticks : TickMacros) : ClockState → List Reading → List MsgBuffer
  | _, [] => []
  | s, r :: rs =>
      let called := runAnimationTime1 ticks s r.timeinfo r.now
      called.2.toList ++ clockFrames ticks called.1 rs

/-- The presses of the button that a sequence of levels shows. -/
def presses : Bool → List Bool → Nat
  | _, [] => 0
  | prev, level :: levels => (fallingEdge prev level).toNat + presses level levels

/-- The button has been pressed an odd number of times, the turn included. -/
def switchedOn (turns : List Turn) (i : Nat) : Bool :=
  presses true ((turns.take (i + 1)).map Turn.currIoLevel) % 2 = 1

/-- What the clock reads in the turns in which it is on. -/
def onReadings (turns : List Turn) : List Reading :=
  (turns.zipIdx.filter fun p => switchedOn turns p.2).map fun p => p.1.reading

section Appending
variable {ticks : TickMacros}

theorem loopAfter_concat (v : LoopVars) (turns : List Turn) (t : Turn) :
    loopAfter ticks v (turns ++ [t]) = (loopTurn ticks (loopAfter ticks v turns) t).1 :=
  List.foldl_concat _ v t turns

theorem loopFrames_concat (v : LoopVars) (turns : List Turn) (t : Turn) :
    loopFrames ticks v (turns ++ [t]) =
      loopFrames ticks v turns ++ (loopTurn ticks (loopAfter ticks v turns) t).2.toList := by
  induction turns generalizing v with
  | nil => simp [loopFrames, loopAfter]
  | cons u turns ih =>
      rw [List.cons_append, loopFrames, loopFrames, ih, List.append_assoc]
      rfl

theorem clockVars_concat (s : ClockState) (readings : List Reading) (r : Reading) :
    clockVars ticks s (readings ++ [r]) =
      (runAnimationTime1 ticks (clockVars ticks s readings) r.timeinfo r.now).1 :=
  List.foldl_concat _ s r readings

theorem clockFrames_concat (s : ClockState) (readings : List Reading) (r : Reading) :
    clockFrames ticks s (readings ++ [r]) = clockFrames ticks s readings ++
      (runAnimationTime1 ticks (clockVars ticks s readings) r.timeinfo r.now).2.toList := by
  induction readings generalizing s with
  | nil => simp [clockFrames, clockVars]
  | cons q readings ih =>
      rw [List.cons_append, clockFrames, clockFrames, ih, List.append_assoc]
      rfl

theorem presses_concat (prev : Bool) (levels : List Bool) (level : Bool) :
    presses prev (levels ++ [level]) =
      presses prev levels + (fallingEdge (levels.getLast?.getD prev) level).toNat := by
  induction levels generalizing prev with
  | nil => simp [presses]
  | cons l levels ih =>
      have hlast : (l :: levels).getLast?.getD prev = levels.getLast?.getD l := by
        cases levels using List.reverseRecOn with
        | nil => rfl
        | append_singleton ls k =>
            rw [← List.cons_append, List.getLast?_concat, List.getLast?_concat]
            rfl
      rw [List.cons_append, presses, presses, ih, hlast, Nat.add_assoc]

/-- Later turns do not change what an earlier one was. -/
theorem switchedOn_concat {turns : List Turn} {i : Nat} (hi : i < turns.length) (t : Turn) :
    switchedOn (turns ++ [t]) i = switchedOn turns i := by
  rw [switchedOn, switchedOn, List.take_append_of_le_length (by omega)]

theorem onReadings_concat (turns : List Turn) (t : Turn) :
    onReadings (turns ++ [t]) = onReadings turns ++
      if switchedOn (turns ++ [t]) turns.length then [t.reading] else [] := by
  have hearlier : turns.zipIdx.filter (fun p => switchedOn (turns ++ [t]) p.2) =
      turns.zipIdx.filter fun p => switchedOn turns p.2 := by
    refine List.filter_congr fun p hp => ?_
    exact switchedOn_concat (List.snd_lt_of_mem_zipIdx hp) t
  rw [onReadings, List.zipIdx_append, List.filter_append, List.map_append, hearlier, onReadings]
  congr 1
  cases hon : switchedOn (turns ++ [t]) turns.length <;> simp [hon]

end Appending

/-! ### The loop is the clock with a switch -/

/-- What the loop remembers: the last level, whether the button was pressed an odd number of times,
and the clock as its turns have left it. -/
def rememberedAfter (ticks : TickMacros) (turns : List Turn) : LoopVars where
  prevIoLevel := (turns.map Turn.currIoLevel).getLast?.getD true
  timeOn := presses true (turns.map Turn.currIoLevel) % 2 = 1
  clock := clockVars ticks .initial (onReadings turns)

theorem odd_add_toNat (n : Nat) (edge : Bool) :
    decide ((n + edge.toNat) % 2 = 1) =
      if edge then !decide (n % 2 = 1) else decide (n % 2 = 1) := by
  cases edge with
  | false => rfl
  | true =>
      rcases Nat.mod_two_eq_zero_or_one n with h | h <;> simp [Nat.add_mod, h]

theorem switchedOn_last (turns : List Turn) (t : Turn) :
    switchedOn (turns ++ [t]) turns.length =
      decide (presses true ((turns ++ [t]).map Turn.currIoLevel) % 2 = 1) := by
  rw [switchedOn, List.take_of_length_le (by simp)]

theorem loopAfter_eq (ticks : TickMacros) (turns : List Turn) :
    loopAfter ticks .initial turns = rememberedAfter ticks turns := by
  induction turns using List.reverseRecOn with
  | nil => rfl
  | append_singleton turns t ih =>
      have hodd : decide (presses true ((turns ++ [t]).map Turn.currIoLevel) % 2 = 1) =
          if fallingEdge (rememberedAfter ticks turns).prevIoLevel t.currIoLevel
          then !(rememberedAfter ticks turns).timeOn else (rememberedAfter ticks turns).timeOn := by
        rw [List.map_append, List.map_singleton, presses_concat, odd_add_toNat]
        rfl
      rw [loopAfter_concat, ih, loopTurn, ← hodd]
      have hreadings := onReadings_concat turns t
      rw [switchedOn_last] at hreadings
      cases hon : decide (presses true ((turns ++ [t]).map Turn.currIoLevel) % 2 = 1) with
      | true =>
          rw [hon, if_pos rfl] at hreadings
          simp only [if_true, rememberedAfter, hreadings, clockVars_concat, hon]
          simp
      | false =>
          rw [hon, if_neg Bool.false_ne_true, List.append_nil] at hreadings
          simp only [Bool.false_eq_true, if_false, rememberedAfter, hreadings, hon]
          simp

theorem loopTurn_frame (ticks : TickMacros) (v : LoopVars) (t : Turn) :
    (loopTurn ticks v t).2 = if (loopTurn ticks v t).1.timeOn then
      (runAnimationTime1 ticks v.clock t.reading.timeinfo t.reading.now).2 else none := by
  cases hon : (if fallingEdge v.prevIoLevel t.currIoLevel then !v.timeOn else v.timeOn) <;>
    simp [loopTurn, hon]

theorem loopFrames_eq (ticks : TickMacros) (turns : List Turn) :
    loopFrames ticks .initial turns = clockFrames ticks .initial (onReadings turns) := by
  induction turns using List.reverseRecOn with
  | nil => rfl
  | append_singleton turns t ih =>
      have hafter := loopAfter_eq ticks (turns ++ [t])
      have htimeOn : (loopAfter ticks .initial (turns ++ [t])).timeOn =
          switchedOn (turns ++ [t]) turns.length := by
        rw [hafter, switchedOn_last]
        rfl
      rw [loopAfter_concat] at htimeOn
      rw [loopFrames_concat, ih, onReadings_concat, loopTurn_frame, htimeOn, loopAfter_eq]
      split
      · rw [clockFrames_concat]
        rfl
      · simp

/-- Over every sequence of levels and readings the loop sends the frames of the clock alone, called
in the turns in which the button has been pressed an odd number of times. -/
theorem frame_maker_shows_clock (ticks : TickMacros) (turns : List Turn) :
    loopFrames ticks .initial turns = clockFrames ticks .initial (onReadings turns) ∧
      (loopAfter ticks .initial turns).clock = clockVars ticks .initial (onReadings turns) :=
  ⟨loopFrames_eq ticks turns, by rw [loopAfter_eq]; rfl⟩

end InfoGlobe.FrameMaker
