import InfoGlobe.Firmware.TcpServerTask

/-!
Message boundaries on the display port. A frame carries neither a length nor a delimiter, and the
session makes one buffer of whatever one `recv` returns; frames keep their boundaries as far as
`recv` keeps them.
-/

namespace InfoGlobe.TcpServerTask
open StepSystem FlatMemory

/-- Allocations and queue insertions succeed. -/
def Succeeds : Label → Prop
  | .malloc ok => ok = true
  | .xQueueSend inserted => inserted = true
  | .recv _ | .send _ | .pop | .other _ => True

instance : DecidablePred Succeeds
  | .malloc ok => inferInstanceAs (Decidable (ok = true))
  | .xQueueSend inserted => inferInstanceAs (Decidable (inserted = true))
  | .recv _ | .send _ | .pop | .other _ => .isTrue trivial

/-- The buffers the session has placed on the display queue. -/
def State.placed (s : State) : List MsgBuffer := s.past.inserted.map Prod.snd

/-- The last chunk has not been offered to the queue yet. -/
def State.offering (s : State) : Prop := s.pc = .malloc ∨ s.pc = .pushBuffer

/-- The chunks that were offered are on the queue, and the one in `rx_buffer` comes next. -/
structure InStep (s : State) : Prop where
  settled : ¬s.offering → s.placed = s.past.received
  chunk : s.offering → s.past.received = s.placed ++ [readAt s.rxBuffer 0 s.len]
  buffer : s.pc = .pushBuffer → s.queueBuffer = readAt s.rxBuffer 0 s.len

theorem inStep_start (rxBuffer : Nat → UInt8) (displayQueue : List MsgBuffer) :
    InStep (start rxBuffer displayQueue) := by
  constructor <;> simp [start, State.offering, State.placed]

theorem inStep_step (s : State) (l : Label) (t : State) (h : InStep s) (hl : Succeeds l)
    (hstep : step s l = some t) : InStep t := by
  cases l with
  | recv r =>
      simp only [step, Option.ite_none_right_eq_some] at hstep
      obtain ⟨⟨hpc, _⟩, hstep⟩ := hstep
      have hplaced := h.settled (by simp [State.offering, hpc])
      cases r with
      | closed | error =>
          obtain rfl := Option.some.inj hstep
          exact ⟨fun _ => hplaced, by simp [State.offering], by simp⟩
      | data bytes =>
          obtain rfl := Option.some.inj hstep
          refine ⟨by simp [State.offering], fun _ => ?_, by simp⟩
          rw [readAt_recvChunk]
          exact congrArg (· ++ [bytes]) hplaced.symm
  | malloc ok =>
      simp only [step, Option.ite_none_right_eq_some] at hstep
      obtain ⟨hpc, hstep⟩ := hstep
      obtain rfl : ok = true := hl
      obtain rfl := Option.some.inj hstep
      exact ⟨by simp [State.offering], fun _ => h.chunk (.inl hpc), fun _ => rfl⟩
  | xQueueSend inserted =>
      simp only [step, Option.ite_none_right_eq_some] at hstep
      obtain ⟨hpc, hstep⟩ := hstep
      obtain rfl : inserted = true := hl
      simp only [if_true, Option.map_eq_some_iff] at hstep
      obtain ⟨q, _, rfl⟩ := hstep
      refine ⟨fun _ => ?_, by simp [State.offering], by simp⟩
      have hchunk := h.chunk (.inr hpc)
      rw [← h.buffer hpc] at hchunk
      simpa [State.placed] using hchunk.symm
  | send written =>
      simp only [step, Option.ite_none_right_eq_some] at hstep
      obtain ⟨⟨hpc, _⟩, hstep⟩ := hstep
      have hplaced := h.settled (by simp [State.offering, hpc])
      split at hstep
      · obtain rfl := Option.some.inj hstep
        exact ⟨fun _ => hplaced, by simp [State.offering], by simp⟩
      · obtain rfl := Option.some.inj hstep
        refine ⟨fun _ => hplaced, ?_, ?_⟩
        · simp only [State.offering]
          split <;> simp
        · simp only
          split <;> simp
  | pop =>
      simp only [step] at hstep
      split at hstep
      · exact absurd hstep (by simp)
      · obtain rfl := Option.some.inj hstep
        exact ⟨h.settled, h.chunk, h.buffer⟩
  | other b =>
      simp only [step, Option.map_eq_some_iff] at hstep
      obtain ⟨q, _, rfl⟩ := hstep
      exact ⟨h.settled, h.chunk, h.buffer⟩

/-- The buffers of a session are the chunks `recv` returned, one for each and in order. They join to
the bytes the client wrote, and are its frames exactly when `recv` returned them one by one. -/
theorem buffers_are_chunks (rxBuffer : Nat → UInt8) (displayQueue : List MsgBuffer)
    (ls : List Label) (frames : List MsgBuffer) {s : State} (hsucceeds : ∀ l ∈ ls, Succeeds l)
    (hr : run step (start rxBuffer displayQueue) ls = some s) (hoffered : ¬s.offering)
    (hstream : s.past.received.flatten = frames.flatten) :
    s.placed = s.past.received ∧ s.placed.flatten = frames.flatten ∧
      (s.placed = frames ↔ s.past.received = frames) := by
  have hkept : Always step InStep (start rxBuffer displayQueue) ls :=
    always_of_eachStep (fun _ h => h) inStep_step (inStep_start rxBuffer displayQueue)
      (eachStep_of_forall_mem hsucceeds)
  have hplaced := (hkept.last hr).settled hoffered
  rw [hplaced]
  exact ⟨rfl, hstream, Iff.rfl⟩

/-- Two frames arrive in one chunk. -/
def joinedRun : List Label :=
  [.recv (.data [0x41, 0x42, 0x43]), .malloc true, .xQueueSend true, .send 3, .recv .closed]

theorem buffers_are_chunks_joined :
    ∃ s, run step (start (fun _ => 0) []) joinedRun = some s ∧
      s.placed = [[0x41, 0x42, 0x43]] := by
  have hrun : ((run step (start (fun _ => 0) []) joinedRun).map
      fun s => (s.pc, s.past.received)) = some (.done, [[0x41, 0x42, 0x43]]) := by decide
  obtain ⟨s, hs, hfields⟩ := Option.map_eq_some_iff.mp hrun
  obtain ⟨hpc, hreceived⟩ := Prod.mk.inj hfields
  refine ⟨s, hs, ?_⟩
  have hoffered : ¬s.offering := by simp [State.offering, hpc]
  have hbuffers := buffers_are_chunks (fun _ => 0) [] joinedRun [[0x41, 0x42], [0x43]] (by decide)
    hs hoffered (by rw [hreceived]; rfl)
  rw [hbuffers.1, hreceived]

/-- The client wrote two frames, and the queue gets one buffer. -/
theorem joined_frames_lose_boundary :
    ¬∀ (frames : List MsgBuffer) (ls : List Label) (s : State),
      (∀ f ∈ frames, 1 ≤ f.length ∧ f.length ≤ maxMessageLen) → (∀ l ∈ ls, Succeeds l) →
        run step (start (fun _ => 0) []) ls = some s → s.pc = .done →
          s.past.received.flatten = frames.flatten → s.placed = frames := by
  intro h
  have hrun : ((run step (start (fun _ => 0) []) joinedRun).map
      fun s => (s.pc, s.past.received, s.placed)) =
        some (.done, [[0x41, 0x42, 0x43]], [[0x41, 0x42, 0x43]]) := by decide
  obtain ⟨s, hs, hfields⟩ := Option.map_eq_some_iff.mp hrun
  obtain ⟨hpc, hrest⟩ := Prod.mk.inj hfields
  obtain ⟨hreceived, hplaced⟩ := Prod.mk.inj hrest
  have hframes := h [[0x41, 0x42], [0x43]] joinedRun s (by decide) (by decide) hs hpc
    (by rw [hreceived]; rfl)
  rw [hplaced] at hframes
  exact absurd hframes (by decide)

end InfoGlobe.TcpServerTask
