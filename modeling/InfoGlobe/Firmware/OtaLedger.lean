import InfoGlobe.Library.CallLog
import InfoGlobe.Firmware.OtaIntegrity

/-!
What an update session owes when it returns: the receive buffer and the update handle. The buffer
is freed on every return path; the handle stays open on the one path that a failed `recv` takes
after `esp_ota_begin`.
-/

namespace InfoGlobe.OtaRetransmit
open StepSystem CallLog

/-- `esp_ota_end` closes the handle whether it succeeds or fails. -/
def Call.closes : Call → Bool
  | .otaAbort | .otaEnd _ => true
  | .markAppValid | .markAppInvalid | .recv _ _ _ | .otaBegin _ | .otaWrite _ _
  | .setBootPartition _ | .sendAck | .free => false

/-- Every successful `esp_ota_begin` is followed by `n` closings of the handle. -/
def ClosedAfterBegin (n : Nat) (calls : List Call) : Prop :=
  Followed (fun c later => c = .otaBegin true → later.countP Call.closes = n) calls

/-- The buffer has been freed once, and the handle, when it was opened, closed once. -/
structure Settled (calls : List Call) : Prop where
  freed : calls.count .free = 1
  closed : ClosedAfterBegin 1 calls

def SettledOnReturn (s : State) : Prop := ∀ code, s.pc = .returned code → Settled s.calls

/-- No `recv` fails once the handle has been opened. -/
def RecvHoldsAfterBegin (s : State) : Label → Prop
  | .recv .error => s.imageHeaderWasChecked = false
  | _ => True

/-! ### Calls that concern neither the buffer nor the handle, and those that do -/

theorem closedAfterBegin_log {n : Nat} {s : State} {c : Call} (h : ClosedAfterBegin n s.calls)
    (hc : c.closes = false) (hbegin : c = .otaBegin true → n = 0) :
    ClosedAfterBegin n (s.log c).calls := by
  refine followed_append_singleton.mpr ⟨?_, fun hb => (hbegin hb).symm⟩
  intro past d later heq hd
  simpa [List.countP_append, hc] using h past d later heq hd

theorem closedAfterBegin_close {s : State} {c : Call} (h : ClosedAfterBegin 0 s.calls)
    (hc : c.closes = true) : ClosedAfterBegin 1 (s.log c).calls := by
  refine followed_append_singleton.mpr ⟨?_, ?_⟩
  · intro past d later heq hd
    have hnone := h past d later heq hd
    rw [List.countP_append, hnone]
    simp [hc]
  · rintro rfl
    exact absurd hc (by simp [Call.closes])

theorem closedAfterBegin_of_not_mem {n : Nat} {calls : List Call}
    (h : .otaBegin true ∉ calls) : ClosedAfterBegin n calls := by
  rintro past d later rfl rfl
  exact absurd (List.mem_append_right past List.mem_cons_self) h

/-- The session is about to give up what it holds. -/
theorem settled_freeAndReturn {s : State} {code : Int} (hfree : s.calls.count .free = 0)
    (hclosed : ClosedAfterBegin 1 s.calls) : Settled (s.freeAndReturn code).calls := by
  refine ⟨?_, closedAfterBegin_log hclosed rfl (by simp)⟩
  simp [State.freeAndReturn, State.log, hfree]

/-! ### What a running session holds -/

/-- The image header has not been checked yet. -/
def Pc.beforeCheck : Pc → Bool
  | .getState | .getBootPartition | .getNextUpdatePartition | .checkVersion => true
  | _ => false

/-- The handle is open between `esp_ota_begin` and the end of the loop. -/
structure Holding (s : State) : Prop where
  before : s.pc.beforeCheck = true → s.imageHeaderWasChecked = false
  checked : s.pc = .otaBegin → s.imageHeaderWasChecked = true
  opened : .otaBegin true ∈ s.calls ↔ ¬Unopened s
  unfreed : s.calls.count .free = 0
  closed : ClosedAfterBegin (if s.pc = .setBootPartition then 1 else 0) s.calls

structure Accounted (s : State) : Prop where
  running : Running s → Holding s
  returned : SettledOnReturn s

theorem accounted_start (rxBuffer : Nat → UInt8) : Accounted (start rxBuffer) := by
  refine ⟨fun _ => ⟨fun _ => rfl, by simp [start], ?_, rfl, followed_nil⟩, ?_⟩
  · simp [start, Unopened]
  · intro code hcode
    exact absurd hcode (by simp [start])

theorem accounted_of_holding {s : State} (hrun : Running s) (h : Holding s) : Accounted s :=
  ⟨fun _ => h, fun code hcode => absurd hcode (hrun code)⟩

theorem accounted_freeAndReturn {s : State} {code : Int} (hfree : s.calls.count .free = 0)
    (hclosed : ClosedAfterBegin 1 s.calls) : Accounted (s.freeAndReturn code) :=
  ⟨fun hrun => absurd rfl (hrun code), fun _ _ => settled_freeAndReturn hfree hclosed⟩

/-- Before the end of the loop the handle has not been closed. -/
theorem Holding.unclosed {s : State} (h : Holding s) (hend : s.pc ≠ .setBootPartition) :
    ClosedAfterBegin 0 s.calls := by
  simpa [hend] using h.closed

/-- As long as the handle is not open there is nothing to close. -/
theorem Holding.unopened {s : State} (h : Holding s) (hs : Unopened s) :
    ClosedAfterBegin 1 s.calls :=
  closedAfterBegin_of_not_mem fun hmem => h.opened.mp hmem hs

/-- Calls that concern neither the buffer nor the handle, on the way to another place. -/
theorem Holding.move {s t : State} (h : Holding s) (hpc : s.pc ≠ .otaBegin)
    (hend : s.pc ≠ .setBootPartition) (hto : t.pc ≠ .otaBegin) (hto' : t.pc ≠ .setBootPartition)
    (hbefore : t.pc.beforeCheck = true → s.imageHeaderWasChecked = false)
    (hchecked : t.imageHeaderWasChecked = s.imageHeaderWasChecked)
    (hcalls : t.calls = s.calls ∨ ∃ c : Call, t.calls = (s.log c).calls ∧ c.closes = false ∧
      c ≠ .free ∧ c ≠ .otaBegin true) : Holding t := by
  have hun : Unopened t ↔ Unopened s := by simp [Unopened, hchecked, hpc, hto]
  have hclosed := h.unclosed hend
  refine ⟨fun hb => hchecked.trans (hbefore hb), fun hb => absurd hb hto, ?_, ?_, ?_⟩
  · rw [hun, ← h.opened]
    rcases hcalls with hc | ⟨c, hc, _, _, hbegin⟩
    · rw [hc]
    · rw [hc, mem_log]
      exact or_iff_left fun heq => hbegin heq.symm
  · rcases hcalls with hc | ⟨c, hc, _, hfree, _⟩
    · rw [hc, h.unfreed]
    · simp [hc, State.log, h.unfreed, hfree]
  · rw [if_neg hto']
    rcases hcalls with hc | ⟨c, hc, hcloses, _, hbegin⟩
    · rw [hc]
      exact hclosed
    · rw [hc]
      exact closedAfterBegin_log hclosed hcloses fun heq => absurd heq hbegin

theorem accounted_recv {p : Platform} {s : State} {r : RecvResult} (hs : Holding s)
    (hpc : s.pc = .recv) (hrecv : RecvHoldsAfterBegin s (.recv r)) :
    Accounted (effect p s (.recv r)) := by
  have hopen : s.pc ≠ .otaBegin := by simp [hpc]
  have hend : s.pc ≠ .setBootPartition := by simp [hpc]
  have hlog : ∀ u : State, u.calls = (s.log (.recv s.dataRead (buffSize - s.dataRead) r)).calls →
      u.calls = s.calls ∨ ∃ c : Call, u.calls = (s.log c).calls ∧ c.closes = false ∧
        c ≠ .free ∧ c ≠ .otaBegin true :=
    fun u hu => .inr ⟨_, hu, rfl, by simp, by simp⟩
  cases r with
  | error =>
      have hclosed := hs.unopened (.inl hrecv)
      refine accounted_freeAndReturn ?_ (closedAfterBegin_log hclosed rfl (by simp))
      simp [State.log, hs.unfreed]
  | closed =>
      refine accounted_of_holding ?_ (hs.move hopen hend ?_ ?_ ?_ rfl (hlog _ rfl))
      all_goals simp [Running, effect, afterRecv, Pc.beforeCheck]
  | data bytes =>
      have hto : (effect p s (.recv (.data bytes))).pc.beforeCheck = true →
          s.imageHeaderWasChecked = false := by
        intro hbefore
        by_contra hunchecked
        have hchecked : s.imageHeaderWasChecked = true := by simpa using hunchecked
        simp [effect, afterRecv, hchecked, Pc.beforeCheck] at hbefore
      have hplace : (effect p s (.recv (.data bytes))).pc.working = true := by
        simp only [effect, afterRecv]
        split
        · rfl
        · split <;> rfl
      refine accounted_of_holding ?_ (hs.move hopen hend ?_ ?_ hto rfl (hlog _ rfl))
      · rintro code hcode
        simp [hcode, Pc.working] at hplace
      · simp only [effect, afterRecv]
        split
        · simp
        · split <;> simp
      · intro hcode
        simp [hcode, Pc.working] at hplace

/-- The handle is opened, or the session returns without one. -/
theorem accounted_otaBegin {p : Platform} {s : State} {ok : Bool} {now : UInt32} (hs : Holding s)
    (hpc : s.pc = .otaBegin) : Accounted (effect p s (.otaBegin ok now)) := by
  have hchecked := hs.checked hpc
  have hnone : .otaBegin true ∉ s.calls := fun hmem => hs.opened.mp hmem (.inr hpc)
  cases ok
  · refine accounted_freeAndReturn ?_ (closedAfterBegin_of_not_mem ?_)
    · simp [State.log, hs.unfreed]
    · simp [hnone]
  · refine accounted_of_holding (by simp [Running, effect]) ⟨?_, ?_, ?_, ?_, ?_⟩
    · simp [effect, Pc.beforeCheck]
    · simp [effect]
    · simp [effect, Unopened, State.log, hchecked]
    · simp [effect, State.log, hs.unfreed]
    · exact closedAfterBegin_log (closedAfterBegin_of_not_mem hnone) rfl fun _ => rfl

/-- A failed write closes the handle on the way out. -/
theorem accounted_otaWrite {p : Platform} {s : State} {ok : Bool} (hs : Holding s)
    (hpc : s.pc = .otaWrite) : Accounted (effect p s (.otaWrite ok)) := by
  have hclosed := hs.unclosed (by simp [hpc])
  have hwritten := closedAfterBegin_log (s := s)
    (c := .otaWrite (FlatMemory.readAt s.rxBuffer 0 s.dataRead.toNat) ok) hclosed rfl (by simp)
  cases ok
  · refine accounted_freeAndReturn ?_ (closedAfterBegin_close hwritten rfl)
    simp [State.log, hs.unfreed]
  · refine accounted_of_holding ?_ (hs.move ?_ ?_ ?_ ?_ ?_ rfl
      (.inr ⟨_, rfl, rfl, by simp, by simp⟩))
    all_goals simp [Running, effect, afterWrite, hpc, Pc.beforeCheck]

/-- `esp_ota_end` closes the handle, also when it fails. -/
theorem accounted_otaEnd {p : Platform} {s : State} {ok : Bool} (hs : Holding s)
    (hpc : s.pc = .otaEnd) : Accounted (effect p s (.otaEnd ok)) := by
  have hclosed := hs.unclosed (by simp [hpc])
  have hended := closedAfterBegin_close (s := s) (c := .otaEnd ok) hclosed rfl
  cases ok
  · exact accounted_freeAndReturn (by simp [State.log, hs.unfreed]) hended
  · refine accounted_of_holding (by simp [Running, effect]) ⟨?_, ?_, ?_, ?_, hended⟩
    · simp [effect, Pc.beforeCheck]
    · simp [effect]
    · simpa [effect, Unopened, State.log, hpc] using hs.opened
    · simp [effect, State.log, hs.unfreed]

theorem accounted_step (p : Platform) (s : State) (l : Label) (t : State) (h : Accounted s)
    (hrecv : RecvHoldsAfterBegin s l) (hstep : step p s l = some t) : Accounted t := by
  have hs := h.running (not_returned_of_step hstep)
  obtain ⟨⟨hpc, _⟩, rfl⟩ := step_eq_some.mp hstep
  cases l with
  | stateOf pendingVerify =>
      have hbefore := hs.before (by simp [hpc, Label.pc, Pc.beforeCheck])
      cases pendingVerify
      all_goals
        refine accounted_of_holding ?_ (hs.move ?_ ?_ ?_ ?_ (fun _ => hbefore) rfl ?_)
      case true.refine_6 => exact .inr ⟨.markAppValid, rfl, rfl, by simp, by simp⟩
      case false.refine_6 => exact .inl rfl
      all_goals simp [Running, effect, hpc, Label.pc, diagnostic]
  | bootPartition found | nextUpdatePartition found =>
      have hbefore := hs.before (by simp [hpc, Label.pc, Pc.beforeCheck])
      cases found
      · exact accounted_freeAndReturn hs.unfreed (hs.unopened (.inl hbefore))
      · refine accounted_of_holding ?_ (hs.move ?_ ?_ ?_ ?_ (fun _ => hbefore) rfl (.inl rfl))
        all_goals simp [Running, effect, hpc, Label.pc]
  | recv r => exact accounted_recv hs hpc hrecv
  | lastInvalid app =>
      have hbefore := hs.before (by simp [hpc, Label.pc, Pc.beforeCheck])
      simp only [effect]
      split
      · exact accounted_freeAndReturn hs.unfreed (hs.unopened (.inl hbefore))
      · have hnone : .otaBegin true ∉ s.calls := fun hmem => hs.opened.mp hmem (.inl hbefore)
        refine accounted_of_holding (by simp [Running]) ⟨by simp [Pc.beforeCheck], by simp, ?_,
          hs.unfreed, closedAfterBegin_of_not_mem hnone⟩
        simp [hnone, Unopened]
  | otaBegin ok now => exact accounted_otaBegin hs hpc
  | otaWrite ok => exact accounted_otaWrite hs hpc
  | ticks a b c d =>
      have hplace : (afterTicks p s a b c d).pc = .sendAck ∧
          (afterTicks p s a b c d).imageHeaderWasChecked = s.imageHeaderWasChecked ∧
            (afterTicks p s a b c d).calls = s.calls := by
        simp only [afterTicks]
        split <;> exact ⟨rfl, rfl, rfl⟩
      obtain ⟨hto, hchecked, hcalls⟩ := hplace
      refine accounted_of_holding ?_ (hs.move ?_ ?_ ?_ ?_ ?_ hchecked (.inl hcalls))
      all_goals simp [Running, effect, hpc, hto, Label.pc, Pc.beforeCheck]
  | sendAck =>
      refine accounted_of_holding ?_ (hs.move ?_ ?_ ?_ ?_ ?_ rfl
        (.inr ⟨.sendAck, rfl, rfl, by simp, by simp⟩))
      all_goals simp [Running, effect, hpc, Label.pc, Pc.beforeCheck]
  | otaEnd ok => exact accounted_otaEnd hs hpc
  | setBootPartition ok =>
      have hclosed : ClosedAfterBegin 1 s.calls := by simpa [hpc, Label.pc] using hs.closed
      have hset := closedAfterBegin_log (s := s) (c := .setBootPartition ok) hclosed rfl (by simp)
      cases ok
      all_goals exact accounted_freeAndReturn (by simp [State.log, hs.unfreed]) hset

/-- A failed `recv` behind `esp_ota_begin` returns with the handle open. -/
theorem recvHolds_of_settled (p : Platform) (s : State) (l : Label) (t : State) (h : Accounted s)
    (hstep : step p s l = some t) (ht : SettledOnReturn t) : RecvHoldsAfterBegin s l := by
  have hs := h.running (not_returned_of_step hstep)
  obtain ⟨⟨hpc, _⟩, rfl⟩ := step_eq_some.mp hstep
  cases l with
  | recv r =>
      cases r with
      | data _ | closed => trivial
      | error =>
          by_contra hchecked
          have hopen : .otaBegin true ∈ s.calls := by
            refine hs.opened.mpr ?_
            simpa [RecvHoldsAfterBegin, Unopened, hpc, Label.pc] using hchecked
          obtain ⟨past, later, heq⟩ := List.append_of_mem hopen
          have hnone : later.countP Call.closes = 0 := by
            have hclosed := hs.unclosed (by simp [hpc, Label.pc])
            exact hclosed past _ later heq rfl
          have hreturned := (ht (-3) rfl).closed past (.otaBegin true)
            (later ++ [.recv s.dataRead (buffSize - s.dataRead) .error, .free])
            (by simp [effect, afterRecv, State.freeAndReturn, State.log, heq]) rfl
          simp [List.countP_append, hnone, Call.closes] at hreturned
  | stateOf _ | bootPartition _ | nextUpdatePartition _ _ _ | lastInvalid _ | otaBegin _ _
  | otaWrite _ | ticks _ _ _ _ | sendAck | otaEnd _ | setBootPartition _ => trivial

/-- A session gives back what it holds on every return path, in exactly the runs in which no `recv`
fails once the handle has been opened. -/
theorem settled_on_return_iff (p : Platform) (rxBuffer : Nat → UInt8) (ls : List Label) :
    Always (step p) SettledOnReturn (start rxBuffer) ls ↔
      EachStep (step p) RecvHoldsAfterBegin (start rxBuffer) ls :=
  always_iff_eachStep (fun _ h => h.returned) (accounted_step p) (recvHolds_of_settled p)
    (accounted_start rxBuffer) ls

/-- The connection breaks off behind the image header, and the handle stays open. -/
def brokenOffRun : List Label :=
  [.stateOf false, .bootPartition true, .nextUpdatePartition true 0 0,
    .recv (.data (List.replicate 289 0xe9)), .lastInvalid ⟨false, none, []⟩, .otaBegin true 5,
    .sendAck, .recv .error]

theorem broken_off_leaves_handle_open :
    ¬Always (step espIdf) SettledOnReturn (start fun _ => 0) brokenOffRun := by
  intro h
  have hrun : ((run (step espIdf) (start fun _ => 0) brokenOffRun).map
      fun s => (s.pc, s.calls)) = some (.returned (-3),
        [.recv 0 8192 (.data (List.replicate 289 0xe9)), .otaBegin true, .sendAck,
          .recv 289 7903 .error, .free]) := by decide +kernel
  obtain ⟨s, hs, hfields⟩ := Option.map_eq_some_iff.mp hrun
  obtain ⟨hpc, hcalls⟩ := Prod.mk.inj hfields
  have hclosed := ((h.last hs) (-3) hpc).closed [.recv 0 8192 (.data (List.replicate 289 0xe9))]
    (.otaBegin true) [.sendAck, .recv 289 7903 .error, .free] hcalls rfl
  exact absurd hclosed (by decide)

end InfoGlobe.OtaRetransmit
