import Mathlib.Data.List.Chain
import Mathlib.Data.List.Induction
import InfoGlobe.Library.MachineWords
import InfoGlobe.Firmware.ClockFreshness

/-!
The blinking of the colon, on the true time. The tick counter wraps, and the elapsed time is an
unsigned difference of two of its readings; it is right as long as no two calls are nearly a whole
turn of the counter apart.
-/

namespace InfoGlobe.Animations
open MachineInt

/-- A call of the clock, with the number of ticks since the start of the system. -/
structure TimedCall where
  timeinfo : Tm
  ticks : Nat

/-- The counter of the operating system holds the ticks modulo 2 ^ 32. -/
def xTaskGetTickCount (ticks : Nat) : UInt32 := UInt32.ofNat ticks

/-- The reading that a call takes. -/
def TimedCall.reading (c : TimedCall) : Reading where
  timeinfo := c.timeinfo
  now := xTaskGetTickCount c.ticks

def timedCall (macros : TickMacros) (s : ClockState) (c : TimedCall) :
    ClockState × Option MsgBuffer :=
  runAnimationTime1 macros s c.timeinfo (xTaskGetTickCount c.ticks)

/-- The static variables behind a sequence of calls. -/
def clockAfter (macros : TickMacros) (calls : List TimedCall) : ClockState :=
  calls.foldl (fun s c => (timedCall macros s c).1) ClockState.initial

/-- The ticks that a blank colon lasts. -/
def blankTime (macros : TickMacros) : Nat := (macros.pdMsToTicks 300).toNat

/-- A call does not go back in time, and comes before the counter has gone round. -/
def Spaced (macros : TickMacros) (c d : TimedCall) : Prop :=
  c.ticks ≤ d.ticks ∧ d.ticks - c.ticks < 2 ^ 32 - blankTime macros

/-- The call finds the colon visible and blanks it. -/
def Blanks (macros : TickMacros) (s : ClockState) (c : TimedCall) : Prop :=
  s.blankColon = false ∧ (timedCall macros s c).1.blankColon = true

/-- Between the two calls that frame `middle` the colon has not been blanked. -/
def Unblanked (macros : TickMacros) (before middle : List TimedCall) : Prop :=
  ∀ xs d ys, middle = xs ++ d :: ys → ¬Blanks macros (clockAfter macros (before ++ xs)) d

/-- The colon over a sequence of calls: blanked at some seconds, shown again by the first call that
is late enough, and drawn whenever it changes. -/
structure ColonTiming (macros : TickMacros) (calls : List TimedCall) : Prop where
  shown : ∀ before b middle c after, calls = before ++ b :: (middle ++ c :: after) →
    Blanks macros (clockAfter macros before) b →
    (∀ d ∈ middle, d.ticks - b.ticks < blankTime macros) →
    (clockAfter macros (before ++ b :: middle)).blankColon = true ∧
      ((clockAfter macros (before ++ b :: (middle ++ [c]))).blankColon = false ↔
        blankTime macros ≤ c.ticks - b.ticks)
  blanked : ∀ before c after, calls = before ++ c :: after →
    Blanks macros (clockAfter macros before) c → c.timeinfo.tmSec % 3 = 0
  renewed : ∀ before b middle c after, calls = before ++ b :: (middle ++ c :: after) →
    Blanks macros (clockAfter macros before) b → Unblanked macros (before ++ [b]) middle →
    Blanks macros (clockAfter macros (before ++ b :: middle)) c →
    c.timeinfo.tmSec ≠ b.timeinfo.tmSec
  once : ∀ before b middle c after, calls = before ++ b :: (middle ++ c :: after) →
    Blanks macros (clockAfter macros before) b →
    (∀ d ∈ middle ++ [c], d.timeinfo.tmSec = b.timeinfo.tmSec) →
    ¬Blanks macros (clockAfter macros (before ++ b :: middle)) c
  drawn : ∀ before c after, calls = before ++ c :: after →
    (clockAfter macros (before ++ [c])).blankColon ≠ (clockAfter macros before).blankColon →
    ((timedCall macros (clockAfter macros before) c).2).isSome = true

/-! ### One call -/

/-- What a call does to the colon: it blanks it, it shows it again, or it leaves it. -/
inductive ColonStep (macros : TickMacros) (s : ClockState) (c : TimedCall) (t : ClockState)
    (frame : Option MsgBuffer) : Prop
  | blanks (visible : s.blankColon = false) (third : c.timeinfo.tmSec % 3 = 0)
      (other : (c.timeinfo.tmSec : Int) ≠ s.blankSecond) (blank : t.blankColon = true)
      (second : t.blankSecond = c.timeinfo.tmSec)
      (tick : t.blankTick = xTaskGetTickCount c.ticks) (sent : frame.isSome = true)
  | shows (blank : s.blankColon = true)
      (due : macros.pdMsToTicks 300 ≤ xTaskGetTickCount c.ticks - s.blankTick)
      (visible : t.blankColon = false) (second : t.blankSecond = s.blankSecond)
      (sent : frame.isSome = true)
  | leaves (same : t.blankColon = s.blankColon) (second : t.blankSecond = s.blankSecond)
      (tick : t.blankTick = s.blankTick) (waits : s.blankColon = true →
        ¬macros.pdMsToTicks 300 ≤ xTaskGetTickCount c.ticks - s.blankTick)

section Call
variable {macros : TickMacros} {s : ClockState} {c : TimedCall}

theorem colonStep (macros : TickMacros) (s : ClockState) (c : TimedCall) :
    ColonStep macros s c (timedCall macros s c).1 (timedCall macros s c).2 := by
  by_cases hdue : ColonDue macros s c.reading
  · have hcall : timedCall macros s c = _ := runAnimationTime1_of_draw (.inl hdue)
    rw [hcall]
    cases hs : s.blankColon with
    | false =>
        rw [ColonDue, if_pos hs] at hdue
        have hblink : blinkColon macros s c.reading.timeinfo c.reading.now = _ :=
          (if_pos hs).trans (if_pos hdue)
        rw [hblink]
        exact .blanks hs hdue.1 hdue.2 rfl rfl rfl rfl
    | true =>
        have hblank : ¬s.blankColon = false := by simp [hs]
        rw [ColonDue, if_neg hblank] at hdue
        have hblink : blinkColon macros s c.reading.timeinfo c.reading.now = _ :=
          (if_neg hblank).trans (if_pos hdue)
        rw [hblink]
        exact .shows hs hdue rfl rfl rfl
  · have hwaits : s.blankColon = true →
        ¬macros.pdMsToTicks 300 ≤ xTaskGetTickCount c.ticks - s.blankTick := by
      intro hs hlate
      rw [ColonDue, if_neg (by simp [hs])] at hdue
      exact hdue hlate
    by_cases hmin : (c.timeinfo.tmMin : Int) = s.lastMinute
    · have hcall : timedCall macros s c = _ := runAnimationTime1_of_still hdue hmin
      rw [hcall]
      exact .leaves rfl rfl rfl hwaits
    · have hcall : timedCall macros s c = _ := runAnimationTime1_of_draw (r := c.reading) (.inr hmin)
      rw [hcall, blinkColon_of_not_due hdue]
      exact .leaves rfl rfl rfl hwaits

/-- A call that blanks the colon keeps its second and its ticks. -/
theorem blanks_iff : Blanks macros s c ↔
    s.blankColon = false ∧ c.timeinfo.tmSec % 3 = 0 ∧ (c.timeinfo.tmSec : Int) ≠ s.blankSecond ∧
      (timedCall macros s c).1.blankColon = true ∧
      (timedCall macros s c).1.blankSecond = c.timeinfo.tmSec ∧
      (timedCall macros s c).1.blankTick = xTaskGetTickCount c.ticks := by
  constructor
  · rintro ⟨hvisible, hblank⟩
    cases colonStep macros s c with
    | blanks _ third other blank second tick _ =>
        exact ⟨hvisible, third, other, blank, second, tick⟩
    | shows hs _ _ _ _ => exact absurd (hvisible.symm.trans hs) (by simp)
    | leaves same _ _ _ => exact absurd ((same.trans hvisible).symm.trans hblank) (by simp)
  · rintro ⟨hvisible, _, _, hblank, _⟩
    exact ⟨hvisible, hblank⟩

theorem blankSecond_of_not_blanks (h : ¬Blanks macros s c) :
    (timedCall macros s c).1.blankSecond = s.blankSecond := by
  cases colonStep macros s c with
  | blanks visible _ _ blank _ _ _ => exact absurd ⟨visible, blank⟩ h
  | shows _ _ _ second _ => exact second
  | leaves _ second _ _ => exact second

theorem sent_of_change (h : (timedCall macros s c).1.blankColon ≠ s.blankColon) :
    (timedCall macros s c).2.isSome = true := by
  cases colonStep macros s c with
  | blanks _ _ _ _ _ _ sent => exact sent
  | shows _ _ _ _ sent => exact sent
  | leaves same _ _ _ => exact absurd same h

/-- A blank colon is shown when the elapsed time is up, and otherwise nothing is forgotten. -/
theorem blankColon_of_blank (h : s.blankColon = true) :
    ((timedCall macros s c).1.blankColon = false ↔
        macros.pdMsToTicks 300 ≤ xTaskGetTickCount c.ticks - s.blankTick) ∧
      ((timedCall macros s c).1.blankColon = true →
        (timedCall macros s c).1.blankTick = s.blankTick) := by
  cases colonStep macros s c with
  | blanks visible _ _ _ _ _ _ => exact absurd (visible.symm.trans h) (by simp)
  | shows _ due visible _ _ =>
      exact ⟨iff_of_true visible due, fun hblank => absurd (visible.symm.trans hblank) (by simp)⟩
  | leaves same _ tick waits =>
      exact ⟨iff_of_false (by simp [same, h]) (waits h), fun _ => tick⟩

end Call

/-! ### Sequences of calls -/

section Calls
variable {macros : TickMacros} {before middle : List TimedCall} {b c : TimedCall}

theorem clockAfter_snoc (macros : TickMacros) (calls : List TimedCall) (c : TimedCall) :
    clockAfter macros (calls ++ [c]) = (timedCall macros (clockAfter macros calls) c).1 := by
  rw [clockAfter, List.foldl_append]
  rfl

theorem clockAfter_concat (macros : TickMacros) (before middle : List TimedCall)
    (b c : TimedCall) : clockAfter macros (before ++ b :: (middle ++ [c])) =
      (timedCall macros (clockAfter macros (before ++ b :: middle)) c).1 := by
  rw [← clockAfter_snoc, List.append_assoc, List.cons_append]

/-- The ticks of later calls are later. -/
theorem ticks_le_of_spaced {calls : List TimedCall} (h : (b :: calls).IsChain (Spaced macros)) :
    ∀ d ∈ calls, b.ticks ≤ d.ticks := by
  have hle : ((b :: calls).map TimedCall.ticks).IsChain (· ≤ ·) :=
    (List.isChain_map TimedCall.ticks).mpr (h.imp fun _ _ hcd => hcd.1)
  exact fun d hd => hle.rel_cons (List.mem_map_of_mem hd)

/-- The counter says whether the colon has been blank for long enough. -/
theorem due_iff (hle : b.ticks ≤ c.ticks) (hlt : c.ticks - b.ticks < 2 ^ 32) :
    macros.pdMsToTicks 300 ≤ xTaskGetTickCount c.ticks - xTaskGetTickCount b.ticks ↔
      blankTime macros ≤ c.ticks - b.ticks := by
  rw [UInt32.le_iff_toNat_le, xTaskGetTickCount, xTaskGetTickCount, toNat_sub_ofNat hle hlt]
  rfl

/-- The counter does not go round while the colon is blank: it has been blank for less than
`blankTime` at the call before. -/
theorem elapsed_lt (hspaced : (b :: (middle ++ [c])).IsChain (Spaced macros))
    (hearly : ∀ d ∈ middle, d.ticks - b.ticks < blankTime macros) :
    c.ticks - b.ticks < 2 ^ 32 := by
  cases middle using List.reverseRecOn with
  | nil =>
      have hnext : Spaced macros b c := (List.isChain_cons_cons.mp hspaced).1
      have hgap := hnext.2
      omega
  | append_singleton middle e =>
      rw [List.append_assoc, List.singleton_append, ← List.cons_append] at hspaced
      have hnext : Spaced macros e c := (List.isChain_append_cons_cons.mp hspaced).2.1
      have hlast := hearly e (List.mem_append_right _ List.mem_cons_self)
      obtain ⟨hle, hgap⟩ := hnext
      omega

/-- Until its time is up the colon stays blank, and the tick of its blanking is kept. -/
theorem blank_of_early (hspaced : (b :: middle).IsChain (Spaced macros))
    (hb : Blanks macros (clockAfter macros before) b)
    (hearly : ∀ d ∈ middle, d.ticks - b.ticks < blankTime macros) :
    (clockAfter macros (before ++ b :: middle)).blankColon = true ∧
      (clockAfter macros (before ++ b :: middle)).blankTick = xTaskGetTickCount b.ticks := by
  induction middle using List.reverseRecOn with
  | nil =>
      obtain ⟨_, _, _, hblank, _, htick⟩ := blanks_iff.mp hb
      rw [clockAfter_snoc]
      exact ⟨hblank, htick⟩
  | append_singleton middle d ih =>
      have hinit : (b :: middle).IsChain (Spaced macros) := by
        rw [← List.cons_append] at hspaced
        exact hspaced.left_of_append
      obtain ⟨hblank, htick⟩ := ih hinit fun e he => hearly e (List.mem_append_left _ he)
      have hd : d ∈ middle ++ [d] := List.mem_append_right _ List.mem_cons_self
      have hlt := hearly d hd
      obtain ⟨hshown, hkept⟩ := @blankColon_of_blank macros _ d hblank
      have hstill : ¬macros.pdMsToTicks 300 ≤
          xTaskGetTickCount d.ticks - xTaskGetTickCount b.ticks := by
        rw [due_iff (ticks_le_of_spaced hspaced d hd) (elapsed_lt hspaced fun e he =>
          hearly e (List.mem_append_left _ he))]
        omega
      rw [htick] at hshown
      rw [clockAfter_concat]
      have hblank' := Bool.of_not_eq_false (mt hshown.mp hstill)
      exact ⟨hblank', (hkept hblank').trans htick⟩

/-- The second of a blanking is kept until the next one, and through calls with the same second. -/
theorem blankSecond_of_blanks (hb : Blanks macros (clockAfter macros before) b)
    (hmiddle : ∀ xs d ys, middle = xs ++ d :: ys → d.timeinfo.tmSec = b.timeinfo.tmSec ∨
      ¬Blanks macros (clockAfter macros (before ++ b :: xs)) d) :
    (clockAfter macros (before ++ b :: middle)).blankSecond = b.timeinfo.tmSec := by
  induction middle using List.reverseRecOn with
  | nil =>
      obtain ⟨_, _, _, _, hsecond, _⟩ := blanks_iff.mp hb
      rw [clockAfter_snoc]
      exact hsecond
  | append_singleton middle d ih =>
      have hkept := ih fun xs e ys heq => hmiddle xs e (ys ++ [d]) (by simp [heq])
      rw [clockAfter_concat]
      by_cases hd : Blanks macros (clockAfter macros (before ++ b :: middle)) d
      · obtain ⟨_, _, _, _, hsecond, _⟩ := blanks_iff.mp hd
        have hsame := (hmiddle middle d [] rfl).resolve_right (not_not.mpr hd)
        rw [hsecond, hsame]
      · rw [blankSecond_of_not_blanks hd, hkept]

/-- The colon keeps its times across every wrap of the counter. -/
theorem colon_blink_timing {calls : List TimedCall} (hspaced : calls.IsChain (Spaced macros)) :
    ColonTiming macros calls := by
  have hpart : ∀ before b middle c after, calls = before ++ b :: (middle ++ c :: after) →
      (b :: (middle ++ [c])).IsChain (Spaced macros) := by
    intro before b middle c after heq
    have hcalls : calls = before ++ ((b :: (middle ++ [c])) ++ after) := by simp [heq]
    rw [hcalls] at hspaced
    exact hspaced.right_of_append.left_of_append
  constructor
  · intro before b middle c after heq hb hearly
    have hchain := hpart before b middle c after heq
    have hinit : (b :: middle).IsChain (Spaced macros) := by
      rw [← List.cons_append] at hchain
      exact hchain.left_of_append
    obtain ⟨hblank, htick⟩ := blank_of_early hinit hb hearly
    have hle := ticks_le_of_spaced hchain c (List.mem_append_right _ List.mem_cons_self)
    have hshown := (@blankColon_of_blank macros _ c hblank).1
    rw [htick, due_iff hle (elapsed_lt hchain hearly)] at hshown
    rw [clockAfter_concat]
    exact ⟨hblank, hshown⟩
  · intro before c after _ hc
    exact (blanks_iff.mp hc).2.1
  · intro before b middle c after _ hb hmiddle hc heq
    have hsecond : (clockAfter macros (before ++ b :: middle)).blankSecond = b.timeinfo.tmSec := by
      refine blankSecond_of_blanks hb fun xs d ys hxs => .inr ?_
      have hd := hmiddle xs d ys hxs
      rwa [List.append_assoc, List.singleton_append] at hd
    refine (blanks_iff.mp hc).2.2.1 ?_
    rw [hsecond, heq]
  · intro before b middle c after _ hb hsame hc
    have hsecond : (clockAfter macros (before ++ b :: middle)).blankSecond = b.timeinfo.tmSec := by
      refine blankSecond_of_blanks hb fun xs d ys hxs => .inl (hsame d ?_)
      simp [hxs]
    refine (blanks_iff.mp hc).2.2.1 ?_
    rw [hsecond, hsame c (List.mem_append_right _ List.mem_cons_self)]
  · intro before c after _ hchange
    rw [clockAfter_snoc] at hchange
    exact sent_of_change hchange

end Calls

def threePastFive : Tm := ⟨10, 5, 3, by decide, by decide, by decide⟩

/-- Three calls in one second, the counter wrapping behind the first one. -/
def wrappingCalls : List TimedCall :=
  [⟨threePastFive, 2 ^ 32 - 100⟩, ⟨threePastFive, 2 ^ 32 + 199⟩, ⟨threePastFive, 2 ^ 32 + 200⟩]

theorem colon_blink_timing_wrapping : ColonTiming milliseconds wrappingCalls := by
  have hblank : blankTime milliseconds = 300 := rfl
  refine colon_blink_timing (.cons_cons ?_ (.cons_cons ?_ (.singleton _)))
  · rw [Spaced, hblank]
    decide
  · rw [Spaced, hblank]
    decide

example : (wrappingCalls.inits.map fun calls => (clockAfter milliseconds calls).blankColon) =
    [false, true, true, false] := by
  decide +kernel

end InfoGlobe.Animations
