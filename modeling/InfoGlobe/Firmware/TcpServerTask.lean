import Mathlib.Data.List.Nodup
import InfoGlobe.Library.FlatMemory
import InfoGlobe.Library.StepSystem
import InfoGlobe.Firmware.MessageType
import InfoGlobe.Firmware.TcpHelpers

/-!
The session of the message port. `do_retransmit` copies every chunk it receives into a heap buffer,
pushes that to the display queue and sends the chunk back. The IR task takes buffers from the queue
and other tasks add some, between any two statements of the session.
-/

namespace InfoGlobe.TcpServerTask
open StepSystem FlatMemory

/-- `sizeof(rx_buffer)`. -/
def rxBufferLen : Nat := 128

inductive Pc
  | recv | malloc | pushBuffer | send | done
  deriving DecidableEq

/-- What the session has done so far; nothing of it is read by the code. Chunks are numbered in the
order in which they were received. -/
structure History where
  received : List MsgBuffer
  inserted : List (Nat × MsgBuffer)
  echoed : List (Nat × UInt8)
  /-- The result of the last `xQueueSend`, which `push_buffer_to_queue` drops. -/
  accepted : Bool

structure State where
  pc : Pc
  rxBuffer : Nat → UInt8
  len : Nat
  queueBuffer : MsgBuffer
  toWrite : Nat
  displayQueue : List MsgBuffer
  past : History

inductive Label
  | recv (r : RecvResult)
  | malloc (ok : Bool)
  /-- `xQueueSend` in `push_buffer_to_queue`: it inserts, or times out on a full queue. -/
  | xQueueSend (inserted : Bool)
  | send (written : Int)
  /-- The IR task takes a buffer. -/
  | pop
  /-- Another task enqueues a buffer. -/
  | other (b : MsgBuffer)
  deriving DecidableEq

/-- A session starts with an uninitialized `rx_buffer` and a queue of any occupancy. -/
def start (rxBuffer : Nat → UInt8) (displayQueue : List MsgBuffer) : State where
  pc := .recv
  rxBuffer := rxBuffer
  len := 0
  queueBuffer := []
  toWrite := 0
  displayQueue := displayQueue
  past := { received := [], inserted := [], echoed := [], accepted := false }

/-- The number of the chunk in `rx_buffer`. -/
def State.chunkNo (s : State) : Nat := s.past.received.length - 1

/-- `recv` into `rx_buffer`, and the terminator stored behind what it delivered. -/
def recvChunk (rxBuffer : Nat → UInt8) (bytes : List UInt8) : Nat → UInt8 :=
  writeAt (writeAt rxBuffer 0 bytes) bytes.length [0]

def step (s : State) : Label → Option State
  | .recv r =>
      if s.pc = .recv ∧ r.within (rxBufferLen - 1) then
        match r with
        | .data bytes => some { s with
            pc := .malloc
            rxBuffer := recvChunk s.rxBuffer bytes
            len := bytes.length
            past := { s.past with received := s.past.received ++ [bytes] } }
        | .closed | .error => some { s with pc := .done }
      else none
  | .malloc ok =>
      if s.pc = .malloc then
        some (if ok then { s with pc := .pushBuffer, queueBuffer := readAt s.rxBuffer 0 s.len }
          else { s with pc := .done })
      else none
  | .xQueueSend inserted =>
      if s.pc = .pushBuffer then
        if inserted then
          (xQueueSend s.displayQueue s.queueBuffer).map fun q => { s with
            pc := .send
            toWrite := s.len
            displayQueue := q
            past := { s.past with
              inserted := s.past.inserted ++ [(s.chunkNo, s.queueBuffer)]
              accepted := true } }
        else if s.displayQueue.length = displayQueueLen then
          some { s with pc := .send, toWrite := s.len, past := { s.past with accepted := false } }
        else none
      else none
  | .send written =>
      if s.pc = .send ∧ written ≤ s.toWrite then
        if written < 0 then some { s with pc := .done }
        else
          let echo := readAt s.rxBuffer (s.len - s.toWrite) written.toNat
          some { s with
            pc := if s.toWrite - written.toNat = 0 then .recv else .send
            toWrite := s.toWrite - written.toNat
            past := { s.past with echoed := s.past.echoed ++ echo.map fun c => (s.chunkNo, c) } }
      else none
  | .pop =>
      match s.displayQueue with
      | [] => none
      | _ :: q => some { s with displayQueue := q }
  | .other b => (xQueueSend s.displayQueue b).map fun q => { s with displayQueue := q }

/-- The buffer allocated for a chunk holds exactly the chunk. -/
theorem readAt_recvChunk (rxBuffer : Nat → UInt8) (bytes : List UInt8) :
    readAt (recvChunk rxBuffer bytes) 0 bytes.length = bytes := by
  rw [recvChunk, readAt_writeAt_of_disjoint _ _ (.inl (by omega)), readAt_writeAt]

/-! ### An echoed byte means an accepted chunk -/

/-- Every chunk of which a byte was echoed is in the queue's history exactly once, whole, and the
insertions are in the order of reception. -/
structure EchoMeansAccepted (s : State) : Prop where
  accepted : ∀ e ∈ s.past.echoed, ∃ b, s.past.received[e.1]? = some b ∧
    (e.1, b) ∈ s.past.inserted ∧ (s.past.inserted.map Prod.fst).count e.1 = 1
  inOrder : (s.past.inserted.map Prod.fst).Pairwise (· < ·)

/-- A byte is only sent back when the `xQueueSend` of its chunk did not time out. -/
def EchoesInserted (s : State) : Label → Prop
  | .send written => 0 < written → s.past.accepted = true
  | _ => True

/-- How many of the received chunks can be in the queue's history. -/
def State.settled (s : State) : Nat :=
  match s.pc with
  | .malloc | .pushBuffer => s.chunkNo
  | .send => if s.past.accepted then s.past.received.length else s.chunkNo
  | .recv | .done => s.past.received.length

/-- The chunk in `rx_buffer` is being processed. -/
def holdsChunk : Pc → Bool
  | .malloc | .pushBuffer | .send => true
  | .recv | .done => false

structure Accounted (s : State) : Prop where
  inOrder : (s.past.inserted.map Prod.fst).Pairwise (· < ·)
  whole : ∀ p ∈ s.past.inserted, s.past.received[p.1]? = some p.2 ∧ p.1 < s.settled
  echoed : ∀ e ∈ s.past.echoed, ∃ b, (e.1, b) ∈ s.past.inserted
  chunk : holdsChunk s.pc = true →
    s.past.received[s.chunkNo]? = some (readAt s.rxBuffer 0 s.len)
  buffer : s.pc = .pushBuffer → s.queueBuffer = readAt s.rxBuffer 0 s.len
  pushed : s.pc = .send → s.past.accepted = true →
    (s.chunkNo, readAt s.rxBuffer 0 s.len) ∈ s.past.inserted

theorem accounted_start (rxBuffer : Nat → UInt8) (displayQueue : List MsgBuffer) :
    Accounted (start rxBuffer displayQueue) := by
  constructor <;> simp [start, holdsChunk]

theorem Accounted.settled_le {s : State} (h : Accounted s) (hpc : holdsChunk s.pc = true) :
    s.chunkNo + 1 = s.past.received.length := by
  have hlt := (List.getElem?_eq_some_iff.mp (h.chunk hpc)).1
  unfold State.chunkNo at hlt ⊢
  omega

theorem Accounted.below {s : State} (h : Accounted s) {p : Nat × MsgBuffer}
    (hp : p ∈ s.past.inserted) : p.1 < s.past.received.length :=
  (List.getElem?_eq_some_iff.mp (h.whole p hp).1).1

/-- Giving up on a session, or its end, leaves the history alone. -/
theorem accounted_done {s : State} (h : Accounted s) : Accounted { s with pc := .done } := by
  refine ⟨h.inOrder, ?_, h.echoed, by simp [holdsChunk], by simp, by simp⟩
  intro p hp
  exact ⟨(h.whole p hp).1, h.below hp⟩

theorem accounted_recv {s t : State} {r : RecvResult} (h : Accounted s)
    (hstep : step s (.recv r) = some t) : Accounted t := by
  simp only [step, Option.ite_none_right_eq_some] at hstep
  obtain ⟨hpc, hstep⟩ := hstep
  cases r with
  | closed | error =>
      obtain rfl := Option.some.inj hstep
      exact accounted_done h
  | data bytes =>
      obtain rfl := Option.some.inj hstep
      refine ⟨h.inOrder, ?_, h.echoed, ?_, by simp, by simp⟩
      · intro p hp
        have hlt := h.below hp
        refine ⟨?_, by simpa [State.settled, State.chunkNo] using hlt⟩
        simpa only [List.getElem?_append_left hlt] using (h.whole p hp).1
      · intro _
        simp [State.chunkNo, readAt_recvChunk]

theorem accounted_malloc {s t : State} {ok : Bool} (h : Accounted s)
    (hstep : step s (.malloc ok) = some t) : Accounted t := by
  simp only [step, Option.ite_none_right_eq_some] at hstep
  obtain ⟨hpc, hstep⟩ := hstep
  have hchunk := h.chunk (by simp [hpc, holdsChunk])
  cases ok with
  | true =>
      obtain rfl := Option.some.inj hstep
      refine ⟨h.inOrder, ?_, h.echoed, fun _ => hchunk, fun _ => rfl, by simp⟩
      intro p hp
      exact ⟨(h.whole p hp).1, by simpa [State.settled, State.chunkNo, hpc] using (h.whole p hp).2⟩
  | false =>
      obtain rfl := Option.some.inj hstep
      exact accounted_done h

theorem accounted_push {s t : State} {inserted : Bool} (h : Accounted s)
    (hstep : step s (.xQueueSend inserted) = some t) : Accounted t := by
  simp only [step, Option.ite_none_right_eq_some] at hstep
  obtain ⟨hpc, hstep⟩ := hstep
  have hhold : holdsChunk s.pc = true := by simp [hpc, holdsChunk]
  have hchunk := h.chunk hhold
  have hlen := h.settled_le hhold
  have hbefore : ∀ p ∈ s.past.inserted, p.1 < s.chunkNo := by
    intro p hp
    simpa [State.settled, hpc] using (h.whole p hp).2
  cases inserted with
  | true =>
      simp only [if_true, Option.map_eq_some_iff] at hstep
      obtain ⟨q, _, rfl⟩ := hstep
      refine ⟨?_, ?_, ?_, fun _ => hchunk, by simp, ?_⟩
      · rw [List.map_append, List.pairwise_append]
        refine ⟨h.inOrder, by simp, ?_⟩
        intro i hi j hj
        obtain ⟨p, hp, rfl⟩ := List.mem_map.mp hi
        obtain rfl : j = s.chunkNo := by simpa using hj
        exact hbefore p hp
      · intro p hp
        rcases List.mem_append.mp hp with hp | hp
        · exact ⟨(h.whole p hp).1, h.below hp⟩
        · obtain rfl := List.mem_singleton.mp hp
          refine ⟨?_, ?_⟩
          · simp only [h.buffer hpc]
            exact hchunk
          · simp only [State.settled, if_true]
            omega
      · intro e he
        obtain ⟨b, hb⟩ := h.echoed e he
        exact ⟨b, List.mem_append_left _ hb⟩
      · intro _ _
        simp only [h.buffer hpc]
        exact List.mem_append_right _ List.mem_cons_self
  | false =>
      simp only [Bool.false_eq_true, if_false] at hstep
      split at hstep
      · obtain rfl := Option.some.inj hstep
        refine ⟨h.inOrder, ?_, h.echoed, fun _ => hchunk, by simp, by simp⟩
        intro p hp
        exact ⟨(h.whole p hp).1, hbefore p hp⟩
      · exact absurd hstep (by simp)

theorem accounted_send {s t : State} {written : Int} (h : Accounted s)
    (hecho : EchoesInserted s (.send written)) (hstep : step s (.send written) = some t) :
    Accounted t := by
  simp only [step, Option.ite_none_right_eq_some] at hstep
  obtain ⟨⟨hpc, _⟩, hstep⟩ := hstep
  have hchunk := h.chunk (by simp [hpc, holdsChunk])
  split at hstep
  · obtain rfl := Option.some.inj hstep
    exact accounted_done h
  · obtain rfl := Option.some.inj hstep
    refine ⟨h.inOrder, ?_, ?_, fun _ => hchunk, ?_, ?_⟩
    · intro p hp
      refine ⟨(h.whole p hp).1, ?_⟩
      by_cases hdone : s.toWrite - written.toNat = 0
      · simpa [State.settled, hdone] using h.below hp
      · simpa [State.settled, State.chunkNo, hdone, hpc] using (h.whole p hp).2
    · intro e he
      rcases List.mem_append.mp he with he | he
      · exact h.echoed e he
      · obtain ⟨c, hc, rfl⟩ := List.mem_map.mp he
        have hpos : 0 < written := by
          by_contra hle
          have hzero : written.toNat = 0 := by omega
          simp [hzero] at hc
        exact ⟨_, h.pushed hpc (hecho hpos)⟩
    · simp only
      split <;> simp
    · intro _ hacc
      exact h.pushed hpc hacc

theorem accounted_step (s : State) (l : Label) (t : State) (h : Accounted s)
    (hecho : EchoesInserted s l) (hstep : step s l = some t) : Accounted t := by
  cases l with
  | recv r => exact accounted_recv h hstep
  | malloc ok => exact accounted_malloc h hstep
  | xQueueSend inserted => exact accounted_push h hstep
  | send written => exact accounted_send h hecho hstep
  | pop =>
      simp only [step] at hstep
      split at hstep
      · exact absurd hstep (by simp)
      · obtain rfl := Option.some.inj hstep
        exact ⟨h.inOrder, h.whole, h.echoed, h.chunk, h.buffer, h.pushed⟩
  | other b =>
      simp only [step, Option.map_eq_some_iff] at hstep
      obtain ⟨q, _, rfl⟩ := hstep
      exact ⟨h.inOrder, h.whole, h.echoed, h.chunk, h.buffer, h.pushed⟩

theorem Accounted.echoMeansAccepted {s : State} (h : Accounted s) : EchoMeansAccepted s := by
  refine ⟨?_, h.inOrder⟩
  intro e he
  obtain ⟨b, hb⟩ := h.echoed e he
  have hnodup : (s.past.inserted.map Prod.fst).Nodup :=
    h.inOrder.imp fun hlt => Nat.ne_of_lt hlt
  exact ⟨b, (h.whole _ hb).1, hb,
    List.count_eq_one_of_mem hnodup (List.mem_map_of_mem (f := Prod.fst) hb)⟩

/-- A byte sent back after a time-out belongs to a chunk that is not in the queue's history. -/
theorem echoesInserted_of_accepted (s : State) (l : Label) (t : State) (h : Accounted s)
    (hstep : step s l = some t) (ht : EchoMeansAccepted t) : EchoesInserted s l := by
  cases l with
  | recv _ | malloc _ | xQueueSend _ | pop | other _ => trivial
  | send written =>
      intro hpos
      by_contra hrejected
      simp only [step, Option.ite_none_right_eq_some] at hstep
      obtain ⟨⟨hpc, hle⟩, hstep⟩ := hstep
      rw [if_neg (by omega)] at hstep
      obtain rfl := Option.some.inj hstep
      obtain ⟨k, hk⟩ : ∃ k, written.toNat = k + 1 := ⟨written.toNat - 1, by omega⟩
      have hecho : (s.chunkNo, s.rxBuffer (s.len - s.toWrite)) ∈
          s.past.echoed ++ (readAt s.rxBuffer (s.len - s.toWrite) written.toNat).map
            fun c => (s.chunkNo, c) := by
        apply List.mem_append_right
        rw [hk, Nat.add_comm, readAt_add]
        simp [readAt]
      obtain ⟨b, _, hb, _⟩ := ht.accepted _ hecho
      have hlt := (h.whole _ hb).2
      simp [State.settled, hpc, hrejected] at hlt

theorem echoMeansAccepted_iff (rxBuffer : Nat → UInt8) (displayQueue : List MsgBuffer)
    (ls : List Label) :
    Always step EchoMeansAccepted (start rxBuffer displayQueue) ls ↔
      EachStep step EchoesInserted (start rxBuffer displayQueue) ls :=
  always_iff_eachStep (fun _ h => h.echoMeansAccepted) accounted_step echoesInserted_of_accepted
    (accounted_start rxBuffer displayQueue) ls

/-! ### The insertions decide -/

/-- An `xQueueSend` of the session inserts. -/
def PushInserts : Label → Prop
  | .xQueueSend inserted => inserted = true
  | _ => True

/-- Where a step leads to, as far as the chunk and the result of its insertion are concerned. -/
inductive Moves (s : State) (l : Label) (t : State) : Prop
  | received (place : t.pc = .malloc) (len : 0 < t.len)
  | allocated (before : s.pc = .malloc) (place : t.pc = .pushBuffer) (len : t.len = s.len)
  | pushed (inserted : Bool) (label : l = .xQueueSend inserted) (place : t.pc = .send)
      (accepted : t.past.accepted = inserted)
  | resumed (before : s.pc = .send) (place : t.pc = .send)
      (accepted : t.past.accepted = s.past.accepted)
  | left (place : t.pc = .recv ∨ t.pc = .done)
  | same (place : t.pc = s.pc) (len : t.len = s.len) (accepted : t.past.accepted = s.past.accepted)

theorem moves_of_step {s t : State} {l : Label} (hstep : step s l = some t) : Moves s l t := by
  cases l with
  | recv r =>
      simp only [step, Option.ite_none_right_eq_some] at hstep
      obtain ⟨⟨_, hwithin⟩, hstep⟩ := hstep
      cases r with
      | data bytes =>
          obtain rfl := Option.some.inj hstep
          exact .received rfl (RecvResult.within_data.mp hwithin).1
      | closed | error =>
          obtain rfl := Option.some.inj hstep
          exact .left (.inr rfl)
  | malloc ok =>
      simp only [step, Option.ite_none_right_eq_some] at hstep
      obtain ⟨hpc, hstep⟩ := hstep
      obtain rfl := Option.some.inj hstep
      cases ok with
      | true => exact .allocated hpc rfl rfl
      | false => exact .left (.inr rfl)
  | xQueueSend inserted =>
      simp only [step, Option.ite_none_right_eq_some] at hstep
      obtain ⟨_, hstep⟩ := hstep
      cases inserted with
      | true =>
          obtain ⟨q, _, rfl⟩ := Option.map_eq_some_iff.mp hstep
          exact .pushed true rfl rfl rfl
      | false =>
          obtain ⟨_, hstep⟩ := Option.ite_none_right_eq_some.mp hstep
          obtain rfl := Option.some.inj hstep
          exact .pushed false rfl rfl rfl
  | send written =>
      simp only [step, Option.ite_none_right_eq_some] at hstep
      obtain ⟨⟨hpc, _⟩, hstep⟩ := hstep
      by_cases hneg : written < 0
      · rw [if_pos hneg] at hstep
        obtain rfl := Option.some.inj hstep
        exact .left (.inr rfl)
      · rw [if_neg hneg] at hstep
        obtain rfl := Option.some.inj hstep
        by_cases hwhole : s.toWrite - written.toNat = 0
        · exact .left (.inl (if_pos hwhole))
        · exact .resumed hpc (if_neg hwhole) rfl
  | pop =>
      cases hqueue : s.displayQueue with
      | nil => simp [step, hqueue] at hstep
      | cons b q =>
          simp only [step, hqueue] at hstep
          obtain rfl := Option.some.inj hstep
          exact .same rfl rfl rfl
  | other b =>
      obtain ⟨q, _, rfl⟩ := Option.map_eq_some_iff.mp hstep
      exact .same rfl rfl rfl

/-- The chunk that is processed is not empty. -/
def ChunkHasBytes (s : State) : Prop := s.pc = .malloc ∨ s.pc = .pushBuffer → 0 < s.len

theorem chunkHasBytes_step (s : State) (l : Label) (t : State) (h : ChunkHasBytes s)
    (hstep : step s l = some t) : ChunkHasBytes t := by
  intro hpc
  cases moves_of_step hstep with
  | received _ len => exact len
  | allocated before _ len => exact len ▸ h (.inl before)
  | pushed _ _ place _ | resumed _ place _ => simp [place] at hpc
  | left place => rcases place with place | place <;> simp [place] at hpc
  | same place len _ => exact len ▸ h (place ▸ hpc)

/-- While a chunk is sent back, its insertion has been reported. -/
def Reported (s : State) : Prop := s.pc = .send → s.past.accepted = true

theorem reported_step (s : State) (l : Label) (t : State) (h : Reported s) (hl : PushInserts l)
    (hstep : step s l = some t) : Reported t := by
  intro hpc
  cases moves_of_step hstep with
  | received place _ | allocated _ place _ => simp [place] at hpc
  | pushed inserted label _ accepted =>
      subst label
      exact accepted.trans hl
  | resumed before _ accepted => exact accepted.trans (h before)
  | left place => rcases place with place | place <;> simp [place] at hpc
  | same place _ accepted => exact accepted.trans (h (place.symm.trans hpc))

theorem echoesInserted_of_pushInserts {rxBuffer : Nat → UInt8} {displayQueue : List MsgBuffer}
    {ls : List Label}
    (h : EachStep step (fun _ l => PushInserts l) (start rxBuffer displayQueue) ls) :
    EachStep step EchoesInserted (start rxBuffer displayQueue) ls := by
  refine eachStep_of_eachStep ?_ reported_step (fun hpc => by simp [start] at hpc) h
  intro s l t hs _ hstep
  cases l with
  | recv _ | malloc _ | xQueueSend _ | pop | other _ => trivial
  | send written =>
      simp only [step, Option.ite_none_right_eq_some] at hstep
      exact fun _ => hs hstep.1.1

/-- After a time-out the next byte that the socket takes is that of a lost chunk. -/
theorem not_always_of_timeout {rxBuffer : Nat → UInt8} {displayQueue : List MsgBuffer}
    {ls : List Label} {s t : State} (hrun : run step (start rxBuffer displayQueue) ls = some s)
    (hstep : step s (.xQueueSend false) = some t) :
    ¬Always step EchoMeansAccepted (start rxBuffer displayQueue)
      (ls ++ [.xQueueSend false, .send 1]) := by
  intro halways
  have hbytes : ChunkHasBytes s :=
    (always_of_invariant (fun _ h => h) chunkHasBytes_step (fun hpc => by simp [start] at hpc)
      ls).last hrun
  simp only [step, Option.ite_none_right_eq_some, Bool.false_eq_true, if_false] at hstep
  obtain ⟨hpc, hfull, hstep⟩ := hstep
  obtain rfl := Option.some.inj hstep
  have hlen : 0 < s.len := hbytes (.inr hpc)
  have hecho := (echoMeansAccepted_iff rxBuffer displayQueue _).mp halways
  rw [show ls ++ [.xQueueSend false, .send 1] = (ls ++ [.xQueueSend false]) ++ [.send 1] by
    rw [List.append_assoc]
    rfl] at hecho
  have hafter : run step (start rxBuffer displayQueue) (ls ++ [.xQueueSend false]) =
      some { s with pc := .send, toWrite := s.len, past := { s.past with accepted := false } } := by
    rw [run_append_of_run hrun, run_cons]
    simp [step, hpc, hfull]
  have hsend : ∃ u, step { s with
      pc := .send
      toWrite := s.len
      past := { s.past with accepted := false } } (.send 1) = some u := by
    have hle : (1 : Int) ≤ s.len := by omega
    simp [step, hle]
  obtain ⟨u, hu⟩ := hsend
  have hlost := hecho.of_run hafter hu (by decide)
  simp at hlost

/-- In every run whose `xQueueSend`s all insert, an echoed byte means that its whole chunk was
inserted, once and in order; and once one of them has timed out, the echo of one more byte is
enough for this to fail. -/
theorem echo_means_accepted (rxBuffer : Nat → UInt8) (displayQueue : List MsgBuffer)
    (ls : List Label) :
    (EachStep step (fun _ l => PushInserts l) (start rxBuffer displayQueue) ls →
      Always step EchoMeansAccepted (start rxBuffer displayQueue) ls) ∧
    (¬EachStep step (fun _ l => PushInserts l) (start rxBuffer displayQueue) ls →
      ∃ k, ¬Always step EchoMeansAccepted (start rxBuffer displayQueue)
        (ls.take k ++ [.send 1])) := by
  constructor
  · intro h
    exact (echoMeansAccepted_iff rxBuffer displayQueue ls).mpr (echoesInserted_of_pushInserts h)
  · intro h
    obtain ⟨ms, l, ns, s, t, rfl, hrun, hstep, hfails⟩ := exists_of_not_eachStep h
    cases l with
    | recv _ | malloc _ | send _ | pop | other _ => exact absurd trivial hfails
    | xQueueSend inserted =>
        obtain rfl : inserted = false := Bool.eq_false_iff.mpr hfails
        refine ⟨ms.length + 1, ?_⟩
        have htake : (ms ++ .xQueueSend false :: ns).take (ms.length + 1) ++ [.send 1] =
            ms ++ [.xQueueSend false, .send 1] := by
          rw [List.take_length_add_append, List.take_succ_cons, List.take_zero, List.append_assoc]
          rfl
        rw [htake]
        exact not_always_of_timeout hrun hstep

/-- The display queue is full, the push of a one-byte chunk times out, and the byte is echoed. -/
def fullQueueRun : List Label :=
  [.recv (.data [0x41]), .malloc true, .xQueueSend false, .send 1]

theorem full_queue_echoes_lost_chunk :
    ¬Always step EchoMeansAccepted (start (fun _ => 0) (List.replicate 10 [0])) fullQueueRun := by
  intro h
  have hrun : ((run step (start (fun _ => 0) (List.replicate 10 [0])) fullQueueRun).map
      fun s => (s.past.echoed, s.past.inserted)) = some ([(0, 0x41)], []) := by decide
  obtain ⟨s, hs, hfields⟩ := Option.map_eq_some_iff.mp hrun
  obtain ⟨hechoed, hinserted⟩ := Prod.mk.inj hfields
  obtain ⟨b, _, hb, _⟩ := (h.last hs).accepted (0, 0x41) (by rw [hechoed]; exact List.mem_cons_self)
  rw [hinserted] at hb
  exact absurd hb (by simp)

end InfoGlobe.TcpServerTask
