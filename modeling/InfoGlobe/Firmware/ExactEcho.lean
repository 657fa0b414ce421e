import InfoGlobe.Firmware.TcpServerTask

/-!
The echo of the message port under partial sends. The inner loop sends from the place that the
count of remaining bytes points to, so what was sent and what is left make up what was received.
-/

namespace InfoGlobe.TcpServerTask
open StepSystem FlatMemory

/-- Allocations succeed, and `send` takes at least one byte or fails. -/
def Admits : Label → Prop
  | .malloc ok => ok = true
  | .send written => written ≠ 0
  | .recv _ | .xQueueSend _ | .pop | .other _ => True

instance : DecidablePred Admits
  | .malloc ok => inferInstanceAs (Decidable (ok = true))
  | .send written => inferInstanceAs (Decidable (written ≠ 0))
  | .recv _ | .xQueueSend _ | .pop | .other _ => .isTrue trivial

/-- What the session does with a chunk: it offers a buffer to the queue, and it calls `send`. -/
inductive Event
  | offered (b : MsgBuffer)
  | send (chunkNo : Nat) (written : Int)
  deriving DecidableEq

def observe (s : State) : Label → List Event
  | .xQueueSend _ => [.offered s.queueBuffer]
  | .send written => [.send s.chunkNo written]
  | .recv _ | .malloc _ | .pop | .other _ => []

def Event.buffer : Event → List MsgBuffer
  | .offered b => [b]
  | .send _ _ => []

/-- The buffers that were offered to the queue, inserted or not. -/
def offeredBuffers (events : List Event) : List MsgBuffer := events.flatMap Event.buffer

def Event.sends (k : Nat) : Event → Bool
  | .offered _ => false
  | .send chunkNo _ => chunkNo = k

/-- The turns of the inner loop for a chunk. -/
def turns (k : Nat) (events : List Event) : Nat := events.countP (Event.sends k)

def State.sentBytes (s : State) : List UInt8 := s.past.echoed.map Prod.snd

/-- The chunk has been received and not yet been offered. -/
def Pc.fresh : Pc → Bool
  | .malloc | .pushBuffer => true
  | .recv | .send | .done => false

/-- What is left of the chunk in `rx_buffer`. -/
def State.unsent (s : State) : List UInt8 :=
  if s.pc.fresh = true then readAt s.rxBuffer 0 s.len
  else readAt s.rxBuffer (s.len - s.toWrite) s.toWrite

/-- How often the inner loop can still turn. -/
def State.budget (s : State) : Nat :=
  match s.pc with
  | .malloc | .pushBuffer => s.len
  | .recv | .send => s.toWrite
  | .done => s.toWrite - 1

structure Echoing (s : State) (events : List Event) : Prop where
  room : s.toWrite ≤ s.len
  idle : s.pc = .recv → s.toWrite = 0
  busy : s.pc = .send → 0 < s.toWrite
  filled : s.pc.fresh = true → 0 < s.len
  chunk : s.pc.fresh = true ∨ 0 < s.toWrite →
    ∃ chunks, s.past.received = chunks ++ [readAt s.rxBuffer 0 s.len]
  sent : s.sentBytes ++ s.unsent = s.past.received.flatten
  buffer : s.pc = .pushBuffer → s.queueBuffer = readAt s.rxBuffer 0 s.len
  offered : offeredBuffers events ++
    (if s.pc.fresh = true then [readAt s.rxBuffer 0 s.len] else []) = s.past.received
  broken : s.pc = .done → 0 < s.toWrite → ∃ k, ∃ w < 0, .send k w ∈ events
  later : ∀ k ≥ s.past.received.length, turns k events = 0
  tally : ∀ k chunk, s.past.received[k]? = some chunk →
    turns k events + (if k = s.chunkNo then s.budget else 0) ≤ chunk.length

theorem echoing_start (rxBuffer : Nat → UInt8) (displayQueue : List MsgBuffer) :
    Echoing (start rxBuffer displayQueue) [] := by
  constructor <;> simp [start, Pc.fresh, State.sentBytes, State.unsent, offeredBuffers, turns]

section Steps
variable {s t : State} {events : List Event}

@[simp] theorem offeredBuffers_append (as bs : List Event) :
    offeredBuffers (as ++ bs) = offeredBuffers as ++ offeredBuffers bs := by
  simp [offeredBuffers]

@[simp] theorem turns_append (k : Nat) (as bs : List Event) :
    turns k (as ++ bs) = turns k as + turns k bs := by
  simp [turns]

/-- The current chunk is the last one. -/
theorem Echoing.current (h : Echoing s events) (hs : s.pc.fresh = true ∨ 0 < s.toWrite) :
    s.chunkNo + 1 = s.past.received.length ∧
      s.past.received[s.chunkNo]? = some (readAt s.rxBuffer 0 s.len) := by
  obtain ⟨chunks, hchunks⟩ := h.chunk hs
  simp [State.chunkNo, hchunks]

/-- A chunk that has been offered is one of the buffers of the queue. -/
theorem Echoing.offered_all (h : Echoing s events) (hfresh : s.pc.fresh = false) :
    offeredBuffers events = s.past.received := by
  have hoffered := h.offered
  rwa [if_neg (by simp [hfresh]), List.append_nil] at hoffered

/-- What is left of the chunk stands at the end of `rx_buffer`. -/
theorem Echoing.sent_rest (h : Echoing s events) (hfresh : s.pc.fresh = false) :
    s.sentBytes ++ readAt s.rxBuffer (s.len - s.toWrite) s.toWrite = s.past.received.flatten := by
  have hsent := h.sent
  rwa [State.unsent, if_neg (by simp [hfresh])] at hsent

theorem echoing_recv (h : Echoing s events) {r : RecvResult}
    (hstep : step s (.recv r) = some t) : Echoing t events := by
  simp only [step, Option.ite_none_right_eq_some] at hstep
  obtain ⟨⟨hpc, hwithin⟩, hstep⟩ := hstep
  have hidle := h.idle hpc
  have hfresh : s.pc.fresh = false := by simp [hpc, Pc.fresh]
  have hoffered := h.offered_all hfresh
  have hsent := h.sent_rest hfresh
  rw [hidle, readAt_zero, List.append_nil] at hsent
  cases r with
  | closed | error =>
      obtain rfl := Option.some.inj hstep
      refine ⟨h.room, by simp, by simp, by simp [Pc.fresh], by simp [Pc.fresh, hidle], ?_, by simp,
        ?_, by simp [hidle], h.later, ?_⟩
      · simpa [State.unsent, State.sentBytes, Pc.fresh, hidle] using hsent
      · simpa [Pc.fresh] using hoffered
      · intro k chunk hchunk
        have htally := h.tally k chunk hchunk
        simpa [State.budget, hpc, hidle] using htally
  | data bytes =>
      obtain rfl := Option.some.inj hstep
      have hpos := (RecvResult.within_data.mp hwithin).1
      refine ⟨by simp [hidle], by simp, by simp, fun _ => hpos, fun _ => ⟨s.past.received, ?_⟩, ?_,
        by simp, ?_, by simp, ?_, ?_⟩
      · simp [readAt_recvChunk]
      · simpa [State.unsent, State.sentBytes, Pc.fresh, readAt_recvChunk] using hsent
      · simpa [Pc.fresh, readAt_recvChunk] using hoffered
      · intro k hk
        rw [List.length_append, List.length_singleton] at hk
        exact h.later k (by omega)
      · intro k chunk hchunk
        simp only [State.chunkNo, List.length_append, List.length_singleton, Nat.add_sub_cancel,
          State.budget]
        rcases Nat.lt_or_ge k s.past.received.length with hlt | hge
        · rw [List.getElem?_append_left hlt] at hchunk
          have htally := h.tally k chunk hchunk
          rw [if_neg (Nat.ne_of_lt hlt)]
          omega
        · have hlast := (List.getElem?_eq_some_iff.mp hchunk).1
          rw [List.length_append, List.length_singleton] at hlast
          obtain rfl : k = s.past.received.length := by omega
          obtain rfl : bytes = chunk := by simpa using hchunk
          simp [h.later s.past.received.length (Nat.le_refl _)]

theorem echoing_malloc (h : Echoing s events) (hstep : step s (.malloc true) = some t) :
    Echoing t events := by
  simp only [step, Option.ite_none_right_eq_some] at hstep
  obtain ⟨hpc, hstep⟩ := hstep
  have hfresh : s.pc.fresh = true := by simp [hpc, Pc.fresh]
  have hoffered := h.offered
  have hsent := h.sent
  rw [State.unsent, if_pos hfresh] at hsent
  rw [if_pos hfresh] at hoffered
  have hbudget : s.budget = s.len := by simp [State.budget, hpc]
  obtain rfl := Option.some.inj hstep
  refine ⟨h.room, by simp, by simp, fun _ => h.filled hfresh, fun _ => h.chunk (.inl hfresh), hsent,
    fun _ => rfl, ?_, by simp, h.later, ?_⟩
  · simpa [Pc.fresh] using hoffered
  · intro k chunk hchunk
    have htally := h.tally k chunk hchunk
    rwa [hbudget] at htally

/-- The offer, whether the queue takes it or not, and the start of the inner loop. -/
theorem echoing_offered (h : Echoing s events) (hpc : s.pc = .pushBuffer) (queue : List MsgBuffer)
    (inserted : List (Nat × MsgBuffer)) (accepted : Bool) :
    Echoing { s with
        pc := .send
        toWrite := s.len
        displayQueue := queue
        past := { s.past with inserted := inserted, accepted := accepted } }
      (events ++ [.offered s.queueBuffer]) := by
  have hfresh : s.pc.fresh = true := by simp [hpc, Pc.fresh]
  have hsent := h.sent
  have hoffered := h.offered
  rw [State.unsent, if_pos hfresh] at hsent
  rw [if_pos hfresh, ← h.buffer hpc] at hoffered
  have hbudget : s.budget = s.len := by simp [State.budget, hpc]
  refine ⟨Nat.le_refl _, by simp, fun _ => h.filled hfresh, by simp [Pc.fresh],
    fun _ => h.chunk (.inl hfresh), ?_, by simp, ?_, by simp, ?_, ?_⟩
  · simpa [State.unsent, Pc.fresh, State.sentBytes] using hsent
  · simpa [offeredBuffers, Event.buffer, Pc.fresh] using hoffered
  · intro k hk
    simpa [turns, Event.sends] using h.later k hk
  · intro k chunk hchunk
    have htally := h.tally k chunk hchunk
    have hnone : turns k [Event.offered s.queueBuffer] = 0 := rfl
    rw [hbudget] at htally
    rw [turns_append, hnone]
    exact htally

theorem echoing_push (h : Echoing s events) {inserted : Bool}
    (hstep : step s (.xQueueSend inserted) = some t) :
    Echoing t (events ++ [.offered s.queueBuffer]) := by
  simp only [step, Option.ite_none_right_eq_some] at hstep
  obtain ⟨hpc, hstep⟩ := hstep
  cases inserted with
  | true =>
      simp only [if_true, Option.map_eq_some_iff] at hstep
      obtain ⟨q, _, rfl⟩ := hstep
      exact echoing_offered h hpc q _ true
  | false =>
      simp only [Bool.false_eq_true, if_false, Option.ite_none_right_eq_some] at hstep
      obtain ⟨_, hstep⟩ := hstep
      obtain rfl := Option.some.inj hstep
      exact echoing_offered h hpc _ _ false

/-- One more turn of the inner loop, with at most one turn less to come. -/
theorem tally_send (h : Echoing s events) (hpc : s.pc = .send) {written : Int} {budget : Nat}
    (hbudget : budget < s.toWrite) {k : Nat} {chunk : MsgBuffer}
    (hchunk : s.past.received[k]? = some chunk) :
    turns k (events ++ [.send s.chunkNo written]) + (if k = s.chunkNo then budget else 0) ≤
      chunk.length := by
  have htally := h.tally k chunk hchunk
  have hfull : s.budget = s.toWrite := by simp [State.budget, hpc]
  rw [hfull] at htally
  by_cases hk : k = s.chunkNo
  · rw [if_pos hk] at htally ⊢
    have hone : turns k [Event.send s.chunkNo written] = 1 := by simp [turns, Event.sends, hk]
    rw [turns_append, hone]
    omega
  · rw [if_neg hk] at htally ⊢
    have hnone : turns k [Event.send s.chunkNo written] = 0 := by
      simp [turns, Event.sends, Ne.symm hk]
    rw [turns_append, hnone]
    exact htally

theorem later_send (h : Echoing s events) (hpc : s.pc = .send) {written : Int} {k : Nat}
    (hk : s.past.received.length ≤ k) : turns k (events ++ [.send s.chunkNo written]) = 0 := by
  have hlast := (h.current (.inr (h.busy hpc))).1
  have hne : s.chunkNo ≠ k := by omega
  rw [turns_append, h.later k hk]
  simp [turns, Event.sends, hne]

/-- A negative result: the session gives up, and the rest of the chunk is not sent. -/
theorem echoing_broken (h : Echoing s events) (hpc : s.pc = .send) {written : Int}
    (hneg : written < 0) :
    Echoing { s with pc := .done } (events ++ [.send s.chunkNo written]) := by
  have hbusy := h.busy hpc
  have hsending : s.pc.fresh = false := by simp [hpc, Pc.fresh]
  have hsent := h.sent_rest hsending
  have hoffered := h.offered_all hsending
  refine ⟨h.room, by simp, by simp, by simp [Pc.fresh], fun _ => h.chunk (.inr hbusy), ?_, by simp,
    ?_, ?_, fun k hk => later_send h hpc hk, fun k chunk hchunk => ?_⟩
  · simpa [State.unsent, State.sentBytes, Pc.fresh] using hsent
  · simpa [offeredBuffers, Event.buffer, Pc.fresh] using hoffered
  · intro _ _
    exact ⟨s.chunkNo, written, hneg, List.mem_append_right _ List.mem_cons_self⟩
  · exact tally_send h hpc (Nat.sub_lt hbusy Nat.one_pos) hchunk

/-- The inner loop takes up where the partial send left off. -/
theorem echoing_resumed (h : Echoing s events) (hpc : s.pc = .send) {n : Nat} {written : Int}
    (hpos : 0 < n) (hle : n ≤ s.toWrite) :
    Echoing { s with
        pc := if s.toWrite - n = 0 then .recv else .send
        toWrite := s.toWrite - n
        past := { s.past with echoed := s.past.echoed ++
          (readAt s.rxBuffer (s.len - s.toWrite) n).map fun c => (s.chunkNo, c) } }
      (events ++ [.send s.chunkNo written]) := by
  have hbusy := h.busy hpc
  have hroom := h.room
  have hsending : s.pc.fresh = false := by simp [hpc, Pc.fresh]
  have hsent := h.sent_rest hsending
  have hoffered := h.offered_all hsending
  have hfresh : (if s.toWrite - n = 0 then Pc.recv else Pc.send).fresh = false := by
    split <;> rfl
  have hsplit : readAt s.rxBuffer (s.len - s.toWrite) s.toWrite =
      readAt s.rxBuffer (s.len - s.toWrite) n ++
        readAt s.rxBuffer (s.len - (s.toWrite - n)) (s.toWrite - n) := by
    have hnext : s.len - (s.toWrite - n) = s.len - s.toWrite + n := by omega
    have hsum : s.toWrite = n + (s.toWrite - n) := by omega
    rw [hnext, ← readAt_add, ← hsum]
  refine ⟨by simp only; omega, ?_, ?_, by simp [hfresh], fun _ => h.chunk (.inr hbusy), ?_, ?_, ?_,
    ?_, fun k hk => later_send h hpc hk, fun k chunk hchunk => ?_⟩
  · intro hrecv
    by_contra hleft
    simp [hleft] at hrecv
  · intro hagain
    apply Nat.pos_of_ne_zero
    intro hzero
    have hdone : s.toWrite - n = 0 := hzero
    simp [hdone] at hagain
  · rw [hsplit] at hsent
    simpa [State.unsent, State.sentBytes, hfresh, List.append_assoc, Function.comp_def] using hsent
  · intro hpush
    simp only at hpush
    split at hpush <;> exact absurd hpush (by simp)
  · simpa [offeredBuffers, Event.buffer, hfresh] using hoffered
  · intro hdone
    simp only at hdone
    split at hdone <;> exact absurd hdone (by simp)
  · have hbudget : ∀ u : State, u.pc = (if s.toWrite - n = 0 then Pc.recv else Pc.send) →
        u.budget = u.toWrite := by
      intro u hu
      unfold State.budget
      split at hu <;> simp [hu]
    rw [hbudget _ rfl]
    exact tally_send h hpc (Nat.sub_lt hbusy hpos) hchunk

theorem echoing_send (h : Echoing s events) {written : Int} (hne : written ≠ 0)
    (hstep : step s (.send written) = some t) :
    Echoing t (events ++ [.send s.chunkNo written]) := by
  simp only [step, Option.ite_none_right_eq_some] at hstep
  obtain ⟨⟨hpc, hle⟩, hstep⟩ := hstep
  by_cases hneg : written < 0
  · rw [if_pos hneg] at hstep
    obtain rfl := Option.some.inj hstep
    exact echoing_broken h hpc hneg
  · rw [if_neg hneg] at hstep
    obtain rfl := Option.some.inj hstep
    exact echoing_resumed h hpc (by omega) (by omega)

/-- The other tasks leave the session alone. -/
theorem echoing_displayQueue (h : Echoing s events) (queue : List MsgBuffer) :
    Echoing { s with displayQueue := queue } events :=
  ⟨h.room, h.idle, h.busy, h.filled, h.chunk, h.sent, h.buffer, h.offered, h.broken, h.later,
    h.tally⟩

theorem echoing_step (s : State) (l : Label) (t : State) (events : List Event)
    (h : Echoing s events) (hl : Admits l) (hstep : step s l = some t) :
    Echoing t (events ++ observe s l) := by
  cases l with
  | recv r => exact (List.append_nil events).symm ▸ echoing_recv h hstep
  | malloc ok =>
      obtain rfl : ok = true := hl
      exact (List.append_nil events).symm ▸ echoing_malloc h hstep
  | xQueueSend inserted => exact echoing_push h hstep
  | send written => exact echoing_send h hl hstep
  | pop =>
      simp only [step] at hstep
      split at hstep
      · exact absurd hstep (by simp)
      · obtain rfl := Option.some.inj hstep
        exact (List.append_nil events).symm ▸ echoing_displayQueue h _
  | other b =>
      simp only [step, Option.map_eq_some_iff] at hstep
      obtain ⟨q, _, rfl⟩ := hstep
      exact (List.append_nil events).symm ▸ echoing_displayQueue h q

end Steps

/-! ### Whole sessions -/

/-- What a session has sent back and offered after the labels `ls`, in the state `t`. -/
structure ExactEcho (ls : List Label) (t : State) (events : List Event) : Prop where
  complete : (∀ w, .send w ∈ ls → 0 ≤ w) → t.pc = .recv ∨ t.pc = .done →
    t.sentBytes = t.past.received.flatten
  cut : ∀ before w after, ls = before ++ .send w :: after → w < 0 →
    (∃ chunks chunk, ∃ k < chunk.length, t.past.received = chunks ++ [chunk] ∧
      t.sentBytes = chunks.flatten ++ chunk.take k) ∧ ∀ r, .recv r ∉ after
  offered : t.pc.fresh = false → offeredBuffers events = t.past.received
  ends : ∀ k chunk, t.past.received[k]? = some chunk → turns k events ≤ chunk.length

section Sessions
variable {rxBuffer : Nat → UInt8} {displayQueue : List MsgBuffer} {s t : State} {ls : List Label}

theorem done_of_step {l : Label} (hpc : s.pc = .done) (hstep : step s l = some t) :
    t.pc = .done ∧ t.past = s.past ∧ ∀ r, l ≠ .recv r := by
  cases l with
  | recv _ | malloc _ | xQueueSend _ | send _ => simp [step, hpc] at hstep
  | pop =>
      simp only [step] at hstep
      split at hstep
      · exact absurd hstep (by simp)
      · obtain rfl := Option.some.inj hstep
        exact ⟨hpc, rfl, by simp⟩
  | other b =>
      simp only [step, Option.map_eq_some_iff] at hstep
      obtain ⟨q, _, rfl⟩ := hstep
      exact ⟨hpc, rfl, by simp⟩

/-- A session that gave up receives nothing more. -/
theorem done_of_run (hpc : s.pc = .done) (hr : run step s ls = some t) :
    t.past = s.past ∧ ∀ r, .recv r ∉ ls := by
  induction ls generalizing s with
  | nil =>
      obtain rfl : s = t := Option.some.inj hr
      exact ⟨rfl, by simp⟩
  | cons l ls ih =>
      obtain ⟨u, hu, hr⟩ := run_cons_eq_some.mp hr
      obtain ⟨hdone, hpast, hl⟩ := done_of_step hpc hu
      obtain ⟨hpast', hls⟩ := ih hdone hr
      refine ⟨hpast'.trans hpast, fun r hr' => ?_⟩
      rcases List.mem_cons.mp hr' with heq | hmem
      · exact hl r heq.symm
      · exact hls r hmem

theorem echoing_of_run (hr : run step (start rxBuffer displayQueue) ls = some t)
    (hadmits : ∀ l ∈ ls, Admits l) :
    Echoing t (trace step observe (start rxBuffer displayQueue) ls) :=
  trace_invariant_of_run echoing_step (echoing_start rxBuffer displayQueue) hadmits hr

theorem send_of_event {k : Nat} {w : Int} (h : .send k w ∈ trace step observe s ls) :
    .send w ∈ ls := by
  obtain ⟨l, hl, u, hu⟩ := exists_label_of_mem_trace h
  cases l with
  | send written =>
      obtain ⟨_, rfl⟩ : k = u.chunkNo ∧ w = written := by simpa [observe] using hu
      exact hl
  | recv _ | malloc _ | xQueueSend _ | pop | other _ => simp [observe] at hu

/-- Without a negative result nothing is left of the last chunk. -/
theorem Echoing.complete (h : Echoing t (trace step observe s ls))
    (hsends : ∀ w, .send w ∈ ls → 0 ≤ w) (hpc : t.pc = .recv ∨ t.pc = .done) :
    t.sentBytes = t.past.received.flatten := by
  have hwrite : t.toWrite = 0 := by
    rcases hpc with hpc | hpc
    · exact h.idle hpc
    · by_contra hleft
      obtain ⟨k, w, hneg, hw⟩ := h.broken hpc (Nat.pos_of_ne_zero hleft)
      have hnonneg := hsends w (send_of_event hw)
      omega
  have hfresh : t.pc.fresh = false := by
    rcases hpc with hpc | hpc <;> rw [hpc] <;> rfl
  have hsent := h.sent_rest hfresh
  rwa [hwrite, readAt_zero, List.append_nil] at hsent

/-- What was sent ends in the chunk of the inner loop. -/
theorem Echoing.sent_of_busy {events : List Event} (h : Echoing s events) (hpc : s.pc = .send) :
    ∃ chunks chunk, ∃ k < chunk.length, s.past.received = chunks ++ [chunk] ∧
      s.sentBytes = chunks.flatten ++ chunk.take k := by
  have hbusy := h.busy hpc
  have hroom := h.room
  obtain ⟨chunks, hchunks⟩ := h.chunk (.inr hbusy)
  have hsent := h.sent_rest (by simp [hpc, Pc.fresh])
  have hsum : s.len = (s.len - s.toWrite) + s.toWrite := by omega
  have hwhole : readAt s.rxBuffer 0 s.len =
      readAt s.rxBuffer 0 (s.len - s.toWrite) ++ readAt s.rxBuffer (s.len - s.toWrite) s.toWrite := by
    have hadd := readAt_add s.rxBuffer 0 (s.len - s.toWrite) s.toWrite
    rwa [← hsum, Nat.zero_add] at hadd
  refine ⟨chunks, readAt s.rxBuffer 0 s.len, s.len - s.toWrite, by rw [length_readAt]; omega,
    hchunks, ?_⟩
  rw [hchunks, List.flatten_append, List.flatten_singleton, hwhole, ← List.append_assoc] at hsent
  rw [take_readAt _ _ (Nat.sub_le _ _)]
  exact List.append_cancel_right hsent

/-- Everything that was received is offered and sent back, up to a negative result of `send`. -/
theorem exact_echo (hr : run step (start rxBuffer displayQueue) ls = some t)
    (hadmits : ∀ l ∈ ls, Admits l) :
    ExactEcho ls t (trace step observe (start rxBuffer displayQueue) ls) := by
  have h := echoing_of_run hr hadmits
  refine ⟨h.complete, ?_, ?_, ?_⟩
  · rintro before w after rfl hneg
    rw [run_append] at hr
    obtain ⟨u, hu, hr⟩ := Option.bind_eq_some_iff.mp hr
    obtain ⟨v, hv, hr⟩ := run_cons_eq_some.mp hr
    have hu' := echoing_of_run hu fun l hl => hadmits l (List.mem_append_left _ hl)
    simp only [step, Option.ite_none_right_eq_some, if_pos hneg] at hv
    obtain ⟨⟨hpc, _⟩, hv⟩ := hv
    obtain rfl := Option.some.inj hv
    obtain ⟨hpast, hquiet⟩ := done_of_run rfl hr
    refine ⟨?_, hquiet⟩
    rw [State.sentBytes, hpast]
    exact hu'.sent_of_busy hpc
  · exact h.offered_all
  · intro k chunk hchunk
    have htally := h.tally k chunk hchunk
    omega

end Sessions

/-- A chunk of three bytes in two sends, and one that breaks off behind its first byte. -/
def partialRun : List Label :=
  [.recv (.data [0x41, 0x42, 0x43]), .malloc true, .xQueueSend true, .send 1, .send 2,
    .recv (.data [0x44, 0x45]), .malloc true, .xQueueSend true, .send 1, .send (-1)]

theorem exact_echo_partial :
    ∃ t, run step (start (fun _ => 0) []) partialRun = some t ∧
      t.sentBytes = [0x41, 0x42, 0x43, 0x44] ∧
      ExactEcho partialRun t (trace step observe (start (fun _ => 0) []) partialRun) := by
  have hrun : (run step (start (fun _ => 0) []) partialRun).map State.sentBytes =
      some [0x41, 0x42, 0x43, 0x44] := by
    decide
  obtain ⟨t, ht, hsent⟩ := Option.map_eq_some_iff.mp hrun
  exact ⟨t, ht, hsent, exact_echo ht (by decide)⟩

end InfoGlobe.TcpServerTask
