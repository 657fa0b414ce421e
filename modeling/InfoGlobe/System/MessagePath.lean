import InfoGlobe.Firmware.ExactEcho
import InfoGlobe.Firmware.IrTransmission

/-!
The way of a message from the message port to the light. The server of the port and the IR
transmitter share the display queue; clients come one after the other, and other tasks enqueue
buffers of their own. What the LED shows is compared with what `recv` returned.
-/

namespace InfoGlobe.MessagePath
open StepSystem FlatMemory BitOrder FifoSender IrLedTask

inductive Origin
  | client
  | other
  deriving DecidableEq

structure State where
  server : TcpServerTask.State
  /-- The chunks of the clients before the current one. -/
  earlier : List MsgBuffer
  ir : IrLedTask.State
  /-- What the queue has taken so far, and whom it came from. -/
  history : List (Origin × MsgBuffer)
  /-- An allocation or an insertion of the server has failed. -/
  lost : Bool

inductive Label
  /-- `accept` returns the next client. -/
  | accept (rxBuffer : Nat → UInt8)
  | server (l : TcpServerTask.Label)
  | ir (l : IrLedTask.Label)
  | other (b : MsgBuffer)

def boot (memory : Nat → UInt8) : State where
  server := { TcpServerTask.start (fun _ => 0) [] with pc := .done }
  earlier := []
  ir := IrLedTask.boot memory
  history := []
  lost := false

/-- The queue is the one of the transmitter, and its other users are parts of the system. -/
def ownCall : TcpServerTask.Label → Bool
  | .pop | .other _ => false
  | .recv _ | .malloc _ | .xQueueSend _ | .send _ => true

def ownStep : IrLedTask.Label → Bool
  | .enqueue _ => false
  | .task | .callback _ => true

/-- What a call of the server has the queue take. -/
def inserted (s : State) : TcpServerTask.Label → List MsgBuffer
  | .xQueueSend true => [s.server.queueBuffer]
  | _ => []

def loses : TcpServerTask.Label → Bool
  | .malloc false | .xQueueSend false => true
  | _ => false

def State.setQueue (s : State) (q : List MsgBuffer) : State :=
  { s with
    server := { s.server with displayQueue := q }
    ir := { s.ir with displayQueue := q } }

def step (s : State) : Label → Option State
  | .accept rxBuffer =>
      if s.server.pc = .done then
        some { s with
          server := TcpServerTask.start rxBuffer s.server.displayQueue
          earlier := s.earlier ++ s.server.past.received }
      else none
  | .server l =>
      if ownCall l then
        (TcpServerTask.step s.server l).map fun server =>
          { s with
            server := server
            ir := { s.ir with displayQueue := server.displayQueue }
            history := s.history ++ (inserted s l).map fun b => (.client, b)
            lost := s.lost || loses l }
      else none
  | .ir l =>
      if ownStep l then
        (IrLedTask.step s.ir l).map fun ir =>
          { s with
            server := { s.server with displayQueue := ir.displayQueue }
            ir := ir }
      else none
  | .other b =>
      (xQueueSend s.ir.displayQueue b).map fun q =>
        { s.setQueue q with history := s.history ++ [(.other, b)] }

/-- Buffers of other tasks fit into `message[]`, and so does what one `recv` returns. -/
def Fits : Label → Prop
  | .server (.recv (.data bytes)) => bytes.length ≤ maxMessageLen
  | .other b => 1 ≤ b.length ∧ b.length ≤ maxMessageLen
  | _ => True

instance (l : Label) : Decidable (Fits l) := by
  unfold Fits
  split <;> infer_instance

/-- What enters the queue, what the transmitter loads, and what the LED shows. -/
def observe (s : State) : Label → List (Event MsgBuffer Nat)
  | .accept _ => []
  | .server l => (inserted s l).map .enqueued
  | .ir l => observeLed s.ir l
  | .other b => [.enqueued b]

/-- All that `recv` has returned, over all clients. -/
def State.chunks (s : State) : List MsgBuffer := s.earlier ++ s.server.past.received

def clientOf (history : List (Origin × MsgBuffer)) : List MsgBuffer :=
  history.filterMap fun e => if e.1 = .client then some e.2 else none

/-- The bytes that the LED settings since a load make, as far as the buffer was long. -/
def litBytes (p : MsgBuffer × List Nat) : List UInt8 :=
  pack ((p.2.take (8 * p.1.length)).map fun d => d == 0)

/-- The light shows what the queue took, in order and complete; of that, what came from the clients
is what `recv` returned, in order and without a gap as long as nothing was lost. -/
structure Shown (sessions : List (MsgBuffer × List Nat)) (s : State) : Prop where
  earlier : ∀ p ∈ sessions.tail, litBytes p = p.1
  current : ∀ p ∈ sessions.head?, 8 * p.1.length ≤ p.2.length → litBytes p = p.1
  inOrder : sessions.reverse.map Prod.fst =
    (s.history.take sessions.length).map Prod.snd
  clients : (clientOf (s.history.take sessions.length)).Sublist s.chunks
  gapless : s.lost = false → clientOf (s.history.take sessions.length) <+: s.chunks
  /-- With the clients alone, the light shows their byte stream, however it was cut. -/
  stream : s.lost = false → (∀ e ∈ s.history, e.1 = .client) →
    (sessions.reverse.map Prod.fst).flatten <+: s.chunks.flatten

/-! ### The chunk on its way to the queue -/

def State.inFlight (s : State) : List MsgBuffer :=
  if s.server.pc.fresh = true then [readAt s.server.rxBuffer 0 s.server.len] else []

structure Linked (s : State) : Prop where
  queue : s.server.displayQueue = s.ir.displayQueue
  buffer : s.server.pc = .pushBuffer →
    s.server.queueBuffer = readAt s.server.rxBuffer 0 s.server.len
  fits : s.server.pc.fresh = true → 1 ≤ s.server.len ∧ s.server.len ≤ maxMessageLen
  offered : (clientOf s.history ++ s.inFlight).Sublist s.chunks
  complete : s.lost = false → clientOf s.history ++ s.inFlight = s.chunks

@[simp] theorem clientOf_append (h k : List (Origin × MsgBuffer)) :
    clientOf (h ++ k) = clientOf h ++ clientOf k := by
  simp [clientOf]

@[simp] theorem clientOf_singleton (b : MsgBuffer) : clientOf [(.client, b)] = [b] := rfl

@[simp] theorem clientOf_client (bs : List MsgBuffer) :
    clientOf (bs.map fun b => (.client, b)) = bs := by
  induction bs with
  | nil => rfl
  | cons b bs ih => simp [clientOf]

theorem linked_boot (memory : Nat → UInt8) : Linked (boot memory) := by
  refine ⟨rfl, ?_, ?_, ?_, fun _ => rfl⟩
  · simp [boot]
  · simp [boot, TcpServerTask.Pc.fresh]
  · exact List.Sublist.refl []

section Steps
variable {s t : State}

theorem inFlight_of_fresh (h : s.server.pc.fresh = true) :
    s.inFlight = [readAt s.server.rxBuffer 0 s.server.len] := if_pos h

theorem inFlight_of_not_fresh (h : s.server.pc.fresh = false) : s.inFlight = [] :=
  if_neg (by simp [h])

theorem step_server {l : TcpServerTask.Label} (h : step s (.server l) = some t) :
    ownCall l = true ∧ ∃ server, TcpServerTask.step s.server l = some server ∧
      t = { s with
        server := server
        ir := { s.ir with displayQueue := server.displayQueue }
        history := s.history ++ (inserted s l).map fun b => (.client, b)
        lost := s.lost || loses l } := by
  simp only [step, Option.ite_none_right_eq_some, Option.map_eq_some_iff] at h
  obtain ⟨hown, server, hserver, rfl⟩ := h
  exact ⟨hown, server, hserver, rfl⟩

theorem step_ir {l : IrLedTask.Label} (h : step s (.ir l) = some t) :
    ownStep l = true ∧ ∃ ir, IrLedTask.step s.ir l = some ir ∧
      t = { s with
        server := { s.server with displayQueue := ir.displayQueue }
        ir := ir } := by
  simp only [step, Option.ite_none_right_eq_some, Option.map_eq_some_iff] at h
  obtain ⟨hown, ir, hir, rfl⟩ := h
  exact ⟨hown, ir, hir, rfl⟩

theorem step_other {b : MsgBuffer} (h : step s (.other b) = some t) :
    s.ir.displayQueue.length < displayQueueLen ∧
      t = { s.setQueue (s.ir.displayQueue ++ [b]) with
        history := s.history ++ [(.other, b)] } := by
  simp only [step, Option.map_eq_some_iff] at h
  obtain ⟨q, hq, rfl⟩ := h
  obtain ⟨hlen, rfl⟩ := xQueueSend_eq_some.mp hq
  exact ⟨hlen, rfl⟩

/-- Away from the chunk nothing is in flight before the step and after it. -/
theorem Linked.frame (h : Linked s) (hs : s.server.pc.fresh = false) (ht : t.server.pc.fresh = false)
    (hqueue : t.server.displayQueue = t.ir.displayQueue) (hhistory : t.history = s.history)
    (hchunks : t.chunks = s.chunks) (hlost : t.lost = s.lost) : Linked t := by
  have hoffered := h.offered
  have hcomplete := h.complete
  rw [inFlight_of_not_fresh hs, ← hhistory, ← hchunks] at hoffered hcomplete
  refine ⟨hqueue, ?_, by simp [ht], ?_, ?_⟩
  · intro hpc
    simp [hpc, TcpServerTask.Pc.fresh] at ht
  · rwa [inFlight_of_not_fresh ht]
  · rwa [inFlight_of_not_fresh ht, hlost]

theorem linked_accept (h : Linked s) {rxBuffer : Nat → UInt8}
    (hstep : step s (.accept rxBuffer) = some t) : Linked t := by
  simp only [step, Option.ite_none_right_eq_some, Option.some.injEq] at hstep
  obtain ⟨hpc, rfl⟩ := hstep
  refine h.frame (by rw [hpc]; rfl) rfl h.queue rfl ?_ rfl
  simp [State.chunks, TcpServerTask.start]

theorem linked_recv (h : Linked s) {r : RecvResult} (hfits : Fits (.server (.recv r)))
    (hstep : step s (.server (.recv r)) = some t) : Linked t := by
  obtain ⟨_, server, hserver, rfl⟩ := step_server hstep
  simp only [TcpServerTask.step, Option.ite_none_right_eq_some] at hserver
  obtain ⟨⟨hpc, hwithin⟩, hserver⟩ := hserver
  have hidle : s.server.pc.fresh = false := by rw [hpc]; rfl
  cases r with
  | closed | error =>
      obtain rfl := Option.some.inj hserver
      exact h.frame hidle rfl rfl (List.append_nil _) rfl (Bool.or_false _)
  | data bytes =>
      obtain rfl := Option.some.inj hserver
      obtain ⟨hpos, _⟩ := RecvResult.within_data.mp hwithin
      have hoffered := h.offered
      have hcomplete := h.complete
      rw [inFlight_of_not_fresh hidle, List.append_nil] at hoffered hcomplete
      refine ⟨rfl, by simp, fun _ => ⟨by simpa using hpos, hfits⟩, ?_, ?_⟩
      · simpa [inserted, State.inFlight, State.chunks, TcpServerTask.Pc.fresh,
          TcpServerTask.readAt_recvChunk] using hoffered.append (List.Sublist.refl [bytes])
      · intro hlost
        have hbefore := hcomplete (by simpa [loses] using hlost)
        simpa [inserted, State.inFlight, State.chunks, TcpServerTask.Pc.fresh,
          TcpServerTask.readAt_recvChunk] using congrArg (· ++ [bytes]) hbefore

theorem linked_malloc (h : Linked s) {ok : Bool}
    (hstep : step s (.server (.malloc ok)) = some t) : Linked t := by
  obtain ⟨_, server, hserver, rfl⟩ := step_server hstep
  simp only [TcpServerTask.step, Option.ite_none_right_eq_some] at hserver
  obtain ⟨hpc, hserver⟩ := hserver
  have hfresh : s.server.pc.fresh = true := by rw [hpc]; rfl
  have hoffered := h.offered
  have hcomplete := h.complete
  rw [inFlight_of_fresh hfresh] at hoffered hcomplete
  cases ok with
  | true =>
      obtain rfl := Option.some.inj hserver
      refine ⟨rfl, fun _ => rfl, fun _ => h.fits hfresh, ?_, ?_⟩
      · simpa [inserted, State.inFlight, TcpServerTask.Pc.fresh, State.chunks] using hoffered
      · simpa [inserted, loses, State.inFlight, TcpServerTask.Pc.fresh, State.chunks] using hcomplete
  | false =>
      obtain rfl := Option.some.inj hserver
      refine ⟨rfl, by simp, by simp [TcpServerTask.Pc.fresh], ?_, by simp [loses]⟩
      have hdropped := (List.sublist_append_left (clientOf s.history) _).trans hoffered
      simpa [inserted, State.inFlight, TcpServerTask.Pc.fresh, State.chunks] using hdropped

theorem linked_push (h : Linked s) {ok : Bool}
    (hstep : step s (.server (.xQueueSend ok)) = some t) : Linked t := by
  obtain ⟨_, server, hserver, rfl⟩ := step_server hstep
  simp only [TcpServerTask.step, Option.ite_none_right_eq_some] at hserver
  obtain ⟨hpc, hserver⟩ := hserver
  have hoffered := h.offered
  have hcomplete := h.complete
  rw [inFlight_of_fresh (by rw [hpc]; rfl), ← h.buffer hpc] at hoffered hcomplete
  cases ok with
  | true =>
      simp only [if_true, Option.map_eq_some_iff] at hserver
      obtain ⟨q, _, rfl⟩ := hserver
      refine ⟨rfl, by simp, by simp [TcpServerTask.Pc.fresh], ?_, ?_⟩
      · simpa [inserted, State.inFlight, TcpServerTask.Pc.fresh, State.chunks] using hoffered
      · simpa [inserted, loses, State.inFlight, TcpServerTask.Pc.fresh, State.chunks] using hcomplete
  | false =>
      simp only [Bool.false_eq_true, if_false, Option.ite_none_right_eq_some] at hserver
      obtain ⟨_, hserver⟩ := hserver
      obtain rfl := Option.some.inj hserver
      refine ⟨rfl, by simp, by simp [TcpServerTask.Pc.fresh], ?_, by simp [loses]⟩
      have hdropped := (List.sublist_append_left (clientOf s.history) _).trans hoffered
      simpa [inserted, State.inFlight, TcpServerTask.Pc.fresh, State.chunks] using hdropped

theorem linked_send (h : Linked s) {written : Int}
    (hstep : step s (.server (.send written)) = some t) : Linked t := by
  obtain ⟨_, server, hserver, rfl⟩ := step_server hstep
  simp only [TcpServerTask.step, Option.ite_none_right_eq_some] at hserver
  obtain ⟨⟨hpc, _⟩, hserver⟩ := hserver
  have hidle : s.server.pc.fresh = false := by rw [hpc]; rfl
  split at hserver
  · obtain rfl := Option.some.inj hserver
    exact h.frame hidle rfl rfl (List.append_nil _) rfl (Bool.or_false _)
  · obtain rfl := Option.some.inj hserver
    refine h.frame hidle ?_ rfl (List.append_nil _) rfl (Bool.or_false _)
    dsimp only
    split <;> rfl

theorem linked_step (s : State) (l : Label) (t : State) (h : Linked s) (hfits : Fits l)
    (hstep : step s l = some t) : Linked t := by
  cases l with
  | accept rxBuffer => exact linked_accept h hstep
  | server l =>
      cases l with
      | recv r => exact linked_recv h hfits hstep
      | malloc ok => exact linked_malloc h hstep
      | xQueueSend ok => exact linked_push h hstep
      | send written => exact linked_send h hstep
      | pop | other _ => exact absurd (step_server hstep).1 (by simp [ownCall])
  | ir l =>
      obtain ⟨_, ir, _, rfl⟩ := step_ir hstep
      exact ⟨rfl, h.buffer, h.fits, h.offered, h.complete⟩
  | other b =>
      obtain ⟨_, rfl⟩ := step_other hstep
      have hclients : clientOf (s.history ++ [(.other, b)]) = clientOf s.history := by
        rw [clientOf_append]
        exact List.append_nil _
      refine ⟨rfl, h.buffer, h.fits, ?_, ?_⟩
      · change (clientOf (s.history ++ [(.other, b)]) ++ s.inFlight).Sublist s.chunks
        rw [hclients]
        exact h.offered
      · change s.lost = false → clientOf (s.history ++ [(.other, b)]) ++ s.inFlight = s.chunks
        rw [hclients]
        exact h.complete

end Steps

/-! ### The transmitter inside the system -/

structure Follows (s : State) (a : FifoSender.State MsgBuffer Nat) : Prop where
  linked : Linked s
  refines : Refines s.ir a

section Simulation
variable {s t : State} {a : FifoSender.State MsgBuffer Nat}

/-- The matching condition of a simulation step. -/
def Matched (s : State) (a : FifoSender.State MsgBuffer Nat) (l : Label) (t : State) : Prop :=
  ∃ as b, run (FifoSender.step ledSettings) a as = some b ∧
    trace (FifoSender.step ledSettings) FifoSender.observe a as = observe s l ∧ Follows t b

/-- Nothing enters the queue. -/
theorem matched_silent (h : Follows s a) {l : Label} (hobserve : observe s l = [])
    (hlinked : Linked t) (hir : t.ir = s.ir) : Matched s a l t :=
  ⟨[], a, rfl, hobserve.symm, hlinked, hir ▸ h.refines⟩

/-- A buffer enters the queue. -/
theorem matched_insert (h : Follows s a) {l : Label} {b : MsgBuffer}
    (hobserve : observe s l = [.enqueued b]) (hb : 1 ≤ b.length ∧ b.length ≤ maxMessageLen)
    (hlen : s.ir.displayQueue.length < displayQueueLen) (hlinked : Linked t)
    (hir : t.ir = { s.ir with displayQueue := s.ir.displayQueue ++ [b] }) : Matched s a l t := by
  have hpush : IrLedTask.step s.ir (.enqueue b) = some t.ir := by
    simp only [IrLedTask.step, xQueueSend, if_pos hlen, Option.map_some, hir]
  obtain ⟨as, c, hrun, htrace, hrefines⟩ := IrLedTask.matched_enqueue h.refines hb hpush
  exact ⟨as, c, hrun, htrace.trans hobserve.symm, hlinked, hrefines⟩

theorem matched_server (h : Follows s a) {l : TcpServerTask.Label} (hlinked : Linked t)
    (hstep : step s (.server l) = some t) : Matched s a (.server l) t := by
  obtain ⟨hown, server, hserver, rfl⟩ := step_server hstep
  have hqueue := h.linked.queue
  -- only a successful `xQueueSend` touches the queue
  cases l with
  | recv r =>
      simp only [TcpServerTask.step, Option.ite_none_right_eq_some] at hserver
      obtain ⟨_, hserver⟩ := hserver
      cases r <;>
        (obtain rfl := Option.some.inj hserver; exact matched_silent h rfl hlinked (by simp [hqueue]))
  | malloc ok =>
      simp only [TcpServerTask.step, Option.ite_none_right_eq_some, Option.some.injEq] at hserver
      obtain ⟨_, rfl⟩ := hserver
      cases ok <;> exact matched_silent h rfl hlinked (by simp [hqueue])
  | xQueueSend ok =>
      simp only [TcpServerTask.step, Option.ite_none_right_eq_some] at hserver
      obtain ⟨hpc, hserver⟩ := hserver
      cases ok with
      | true =>
          simp only [if_true, Option.map_eq_some_iff] at hserver
          obtain ⟨q, hq, rfl⟩ := hserver
          obtain ⟨hlen, rfl⟩ := xQueueSend_eq_some.mp hq
          have hsize : 1 ≤ s.server.queueBuffer.length ∧
              s.server.queueBuffer.length ≤ maxMessageLen := by
            rw [h.linked.buffer hpc, length_readAt]
            exact h.linked.fits (by rw [hpc]; rfl)
          exact matched_insert h rfl hsize (hqueue ▸ hlen) hlinked (by simp [hqueue])
      | false =>
          simp only [Bool.false_eq_true, if_false, Option.ite_none_right_eq_some] at hserver
          obtain ⟨_, hserver⟩ := hserver
          obtain rfl := Option.some.inj hserver
          exact matched_silent h rfl hlinked (by simp [hqueue])
  | send written =>
      simp only [TcpServerTask.step, Option.ite_none_right_eq_some] at hserver
      obtain ⟨_, hserver⟩ := hserver
      split at hserver <;>
        (obtain rfl := Option.some.inj hserver; exact matched_silent h rfl hlinked (by simp [hqueue]))
  | pop | other _ => exact absurd hown (by simp [ownCall])

theorem matched_step (s : State) (a : FifoSender.State MsgBuffer Nat) (l : Label) (t : State)
    (h : Follows s a) (hfits : Fits l) (hstep : step s l = some t) : Matched s a l t := by
  have hlinked := linked_step s l t h.linked hfits hstep
  cases l with
  | accept rxBuffer =>
      simp only [step, Option.ite_none_right_eq_some, Option.some.injEq] at hstep
      obtain ⟨_, rfl⟩ := hstep
      exact matched_silent h rfl hlinked rfl
  | server l => exact matched_server h hlinked hstep
  | ir l =>
      obtain ⟨hown, ir, hir, rfl⟩ := step_ir hstep
      have hsized : Sized l := by
        cases l with
        | enqueue b => exact absurd hown (by simp [ownStep])
        | task | callback _ => trivial
      obtain ⟨as, b, hrun, htrace, hrefines⟩ :=
        IrLedTask.matched_step s.ir a l ir h.refines hsized hir
      exact ⟨as, b, hrun, htrace, hlinked, hrefines⟩
  | other b =>
      obtain ⟨hlen, rfl⟩ := step_other hstep
      exact matched_insert h rfl hfits hlen hlinked rfl

theorem enqueuedOf_inserted (bs : List MsgBuffer) :
    enqueuedOf (bs.map (Event.enqueued (β := Nat))) = bs := by
  induction bs with
  | nil => rfl
  | cons b bs ih => simp [enqueuedOf]

/-- The history says what has entered the queue. -/
theorem history_step (s : State) (l : Label) (t : State) (past : List (Event MsgBuffer Nat))
    (h : enqueuedOf past = s.history.map Prod.snd) (hstep : step s l = some t) :
    enqueuedOf (past ++ observe s l) = t.history.map Prod.snd := by
  rw [enqueuedOf_append, h]
  cases l with
  | accept rxBuffer =>
      simp only [step, Option.ite_none_right_eq_some, Option.some.injEq] at hstep
      obtain ⟨_, rfl⟩ := hstep
      exact List.append_nil _
  | server l =>
      obtain ⟨_, server, _, rfl⟩ := step_server hstep
      rw [observe, enqueuedOf_inserted, List.map_append, List.map_map]
      exact congrArg (_ ++ ·) (List.map_id _).symm
  | ir l =>
      obtain ⟨hown, ir, _, rfl⟩ := step_ir hstep
      cases l with
      | task =>
          simp only [observe, observeLed]
          split <;> exact List.append_nil _
      | callback _ => exact List.append_nil _
      | enqueue b => exact absurd hown (by simp [ownStep])
  | other b =>
      obtain ⟨_, rfl⟩ := step_other hstep
      simp [observe, enqueuedOf]

end Simulation

/-! ### What the light shows -/

theorem litBytes_of_sent {p : MsgBuffer × List Nat} (h : ledSettings p.1 <+: p.2) :
    litBytes p = p.1 := by
  rw [litBytes, take_of_sent h, pack_ledSettings]

theorem clientOf_of_forall {history : List (Origin × MsgBuffer)}
    (h : ∀ e ∈ history, e.1 = .client) : clientOf history = history.map Prod.snd := by
  induction history with
  | nil => rfl
  | cons e history ih =>
      have he : e.1 = .client := h e List.mem_cons_self
      have hrest := ih fun d hd => h d (List.mem_cons_of_mem e hd)
      simpa [clientOf, he] using hrest

theorem shown_of_delivered {events : List (Event MsgBuffer Nat)} {s : State} (h : Linked s)
    (delivered : Delivered ledSettings events)
    (hhistory : enqueuedOf events = s.history.map Prod.snd) : Shown (sessions events) s := by
  have hcurrent : ∀ p ∈ (sessions events).head?, 8 * p.1.length ≤ p.2.length →
      litBytes p = p.1 := by
    intro p hp hfull
    rcases delivered.current p hp with hsent | hsending
    · exact litBytes_of_sent hsent
    · -- the newest session is complete as well
      have hlen : (ledSettings p.1).length ≤ p.2.length := by simpa using hfull
      exact litBytes_of_sent (hsending.eq_of_length_le hlen ▸ List.prefix_refl _)
  have horder : (sessions events).reverse.map Prod.fst =
      (s.history.take (sessions events).length).map Prod.snd := by
    have htake := List.prefix_iff_eq_take.mp delivered.inOrder
    rwa [hhistory, List.length_map, List.length_reverse, ← List.map_take] at htake
  have htaken := List.take_prefix (sessions events).length s.history
  have hpre : clientOf (s.history.take (sessions events).length) <+: clientOf s.history :=
    htaken.filterMap _
  have hgapless : s.lost = false →
      clientOf (s.history.take (sessions events).length) <+: s.chunks := by
    intro hlost
    rw [← h.complete hlost]
    exact hpre.trans (List.prefix_append _ _)
  refine ⟨fun p hp => litBytes_of_sent (delivered.earlier p hp), hcurrent, horder, ?_, hgapless, ?_⟩
  · exact hpre.sublist.trans ((List.sublist_append_left _ _).trans h.offered)
  · intro hlost hclients
    rw [horder, ← clientOf_of_forall fun e he => hclients e (List.mem_of_mem_take he)]
    obtain ⟨rest, hrest⟩ := hgapless hlost
    exact ⟨rest.flatten, by rw [← hrest, List.flatten_append]⟩

/-- Every interleaving of the server, its clients, the transmitter and other tasks: the light shows
whole buffers in the order the queue took them, and the clients' bytes in the order they came. -/
theorem message_path (memory : Nat → UInt8) {ls : List Label} (hfits : ∀ l ∈ ls, Fits l) {t : State}
    (hr : run step (boot memory) ls = some t) :
    Shown (sessions (trace step observe (boot memory) ls)) t := by
  have hfollows : Follows (boot memory) initial := ⟨linked_boot memory, refines_boot memory⟩
  obtain ⟨as, _, _, htrace⟩ := trace_simulation (D := Fits) matched_step hfollows hfits
  have hdelivered : Delivered ledSettings (trace step observe (boot memory) ls) :=
    htrace ▸ trace_delivered ledSettings as
  have hlinked : Linked t :=
    (always_of_eachStep (fun _ h => h) linked_step (linked_boot memory)
      (eachStep_of_forall_mem hfits)).last hr
  have hhistory : enqueuedOf ([] ++ trace step observe (boot memory) ls) =
      t.history.map Prod.snd :=
    trace_invariant_of_run (D := fun _ => True)
      (I := fun s past => enqueuedOf past = s.history.map Prod.snd)
      (fun s l t past h _ => history_step s l t past h) rfl (fun _ _ => trivial) hr
  exact shown_of_delivered hlinked hdelivered hhistory

/-- A client writes two bytes, which arrive one by one; the first one is sent out. -/
def cutRun : List Label :=
  List.replicate 8 (.ir .task) ++ .accept (fun _ => 0) ::
    (([.recv (.data [0xa5]), .malloc true, .xQueueSend true, .send 1,
      .recv (.data [0x3c]), .malloc true, .xQueueSend true] :
        List TcpServerTask.Label).map Label.server ++
      List.replicate 9 (.ir .task) ++ List.replicate 8 (.ir (.callback 0)))

theorem message_path_cut :
    ∃ t, run step (boot fun _ => 0) cutRun = some t ∧ t.chunks = [[0xa5], [0x3c]] ∧
      Shown (sessions (trace step observe (boot fun _ => 0) cutRun)) t := by
  have hrun : (run step (boot fun _ => 0) cutRun).map State.chunks =
      some [[0xa5], [0x3c]] := by decide +kernel
  obtain ⟨t, ht, hchunks⟩ := Option.map_eq_some_iff.mp hrun
  exact ⟨t, ht, hchunks, message_path (fun _ => 0) (by decide +kernel) ht⟩

end InfoGlobe.MessagePath
