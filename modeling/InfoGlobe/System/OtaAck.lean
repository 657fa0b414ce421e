import InfoGlobe.System.OtaLink

/-!
What an "ACK" means to the client. The server acknowledges what one `recv` delivered, and once more
whatever its session has returned; that is one "ACK" for each chunk, after the chunk, only as long
as no chunk is split and no call fails.
-/

namespace InfoGlobe.OtaLink
open StepSystem OtaServerTask

/-- The client has chunks to send or to get acknowledged. -/
def InLoop (s : State) : Prop := s.client.pc ≠ .recvFinal ∧ s.client.pc ≠ .done

/-- A `recv` takes all that is in flight. -/
def TakesAll (s : State) : OtaRetransmit.Label → Prop
  | .recv (.data bytes) => bytes = s.toServer
  | .recv .closed => False
  | _ => True

/-- While the client is in its loop, each `recv` of the server takes all that is in flight, none
reports the end of the stream, and no call of the session fails. -/
def Orderly (p : OtaRetransmit.Platform) (s : State) : Label → Prop
  | .server (.session l) =>
      InLoop s → ¬OtaRetransmit.Fails p s.server.session l ∧ TakesAll s l
  | .server _ | .client _ | .clientClose => True

instance (s : State) : Decidable (InLoop s) := inferInstanceAs (Decidable (_ ∧ _))

instance (s : State) (l : OtaRetransmit.Label) : Decidable (TakesAll s l) := by
  unfold TakesAll
  split <;> infer_instance

instance (p : OtaRetransmit.Platform) (s : State) (l : Label) : Decidable (Orderly p s l) := by
  unfold Orderly
  split <;> infer_instance

/-- The per-chunk check passes on this response. -/
def Passes (s : State) (response : List UInt8) : Prop :=
  s.client.pc = .recvChunk ∧
    ∃ text, OtaWorker.decode response = some text ∧ OtaWorker.containsAck text = true

/-- When the check passes for a chunk, the server has received everything up to that chunk, and its
session has not returned an error. -/
def AckMeansReceived (file : List UInt8) (s : State) : Label → Prop
  | .client (.recv response) => Passes s response →
      OtaRetransmit.received s.server.session.calls = file.take s.client.totalTxSize ∧
        ∀ code, s.server.session.pc = .returned code → code = 0
  | .client _ | .server _ | .clientClose => True

def Waiting (s : State) : Prop := s.server.pc = .session ∧ s.server.session.pc.waiting = true

def Working (s : State) : Prop := s.server.pc = .session ∧ s.server.session.pc.working = true

/-- How far the exchange for the current chunk has come. -/
def Exchange (s : State) : Prop :=
  match s.client.pc with
  | .openFile | .read => s.toServer = [] ∧ s.toClient = [] ∧ Waiting s
  | .sendall => s.client.chunk ≠ [] ∧ s.toServer = [] ∧ s.toClient = [] ∧ Waiting s
  | .recvChunk =>
      s.toServer ≠ [] ∧ s.toClient = [] ∧ Waiting s ∨
        s.toServer = [] ∧ s.toClient = [] ∧ Working s ∨
        s.toServer = [] ∧ s.toClient = ackBuff ∧ Waiting s
  | .recvFinal | .done => True

/-- The part of the file that the client has read and not handed over. -/
def unsent (s : State) : List UInt8 := if s.client.pc = .sendall then s.client.chunk else []

/-- Every byte of the file is in exactly one place. -/
structure Accounted (file : List UInt8) (s : State) : Prop where
  places : OtaRetransmit.received s.server.session.calls ++ s.toServer ++ unsent s ++
    s.client.binaryFile = file
  read : s.client.totalTxSize =
    (OtaRetransmit.received s.server.session.calls ++ s.toServer ++ unsent s).length

structure Synced (file : List UInt8) (s : State) : Prop where
  exchange : Exchange s
  accounted : InLoop s → Accounted file s

theorem synced_connected (server : OtaServerTask.State) (rxBuffer : Nat → UInt8)
    (file : List UInt8) (chunkSize : Nat) :
    Synced file (connected server rxBuffer file chunkSize) := by
  refine ⟨⟨rfl, rfl, rfl, rfl⟩, fun _ => ⟨rfl, rfl⟩⟩

/-! ### The client -/

/-- Of the parts of an "ACK" only the whole passes the check. -/
theorem eq_ackBuff_of_passes {s : State} {response : List UInt8} (hpasses : Passes s response)
    (hpart : response <+: ackBuff) : response = ackBuff := by
  obtain ⟨_, text, htext, hack⟩ := hpasses
  have hparts : ∀ r ∈ ackBuff.inits,
      (OtaWorker.decode r).elim false OtaWorker.containsAck = true → r = ackBuff := by
    decide +kernel
  apply hparts response ((List.mem_inits response ackBuff).mpr hpart)
  simp [htext, hack]

theorem not_passes_nil (s : State) : ¬Passes s [] := by
  intro hpasses
  exact absurd (eq_ackBuff_of_passes hpasses List.nil_prefix) (by decide)

theorem prefix_of_clientMay {s : State} {response : List UInt8}
    (h : clientMay s (.recv response)) : response <+: s.toClient := by
  cases response with
  | nil => exact List.nil_prefix
  | cons b response => exact h.1

/-- The check passes on the one "ACK" for the chunk, when nothing is under way any more. -/
theorem exchange_of_passes {s : State} {response : List UInt8} (h : Exchange s)
    (hmay : clientMay s (.recv response)) (hpasses : Passes s response) :
    response = ackBuff ∧ s.toServer = [] ∧ s.toClient = ackBuff ∧ Waiting s := by
  have hpart := prefix_of_clientMay hmay
  have hnil : s.toClient ≠ [] := by
    intro hnil
    rw [hnil] at hpart
    exact not_passes_nil s (List.prefix_nil.mp hpart ▸ hpasses)
  simp only [Exchange, hpasses.1] at h
  rcases h with ⟨_, hnone, _⟩ | ⟨_, hnone, _⟩ | ⟨hserver, hclient, hwaiting⟩
  · exact absurd hnone hnil
  · exact absurd hnone hnil
  · rw [hclient] at hpart
    exact ⟨eq_ackBuff_of_passes hpasses hpart, hserver, hclient, hwaiting⟩

theorem synced_of_left {file : List UInt8} {s : State}
    (h : s.client.pc = .recvFinal ∨ s.client.pc = .done) : Synced file s := by
  refine ⟨?_, fun hloop => absurd h (not_or.mpr hloop)⟩
  rcases h with h | h <;> simp [Exchange, h]

section Client
variable {p : OtaRetransmit.Platform} {file : List UInt8} {s t : State}

/-- The next chunk is taken from the file, or the last one has been acknowledged. -/
theorem synced_read (h : Synced file s) (hpc : s.client.pc = .read) :
    Synced file (afterClient s (OtaWorker.effect s.client .read) .read) := by
  have hexchange := h.exchange
  obtain ⟨places, read⟩ := h.accounted (by simp [InLoop, hpc])
  simp only [Exchange, hpc] at hexchange
  simp only [unsent, hpc, reduceCtorEq, if_false, List.append_nil] at places read
  by_cases hchunk : s.client.binaryFile.take s.client.chunkSize = []
  · apply synced_of_left
    simp [afterClient, OtaWorker.effect, hchunk]
  · have hpc' : (afterClient s (OtaWorker.effect s.client .read) .read).client.pc = .sendall :=
      if_neg hchunk
    refine ⟨?_, fun _ => ⟨?_, ?_⟩⟩
    · simp only [Exchange, hpc']
      exact ⟨hchunk, hexchange⟩
    · simp only [unsent, hpc', if_true]
      simpa [afterClient, OtaWorker.effect] using places
    · simp only [unsent, hpc', if_true]
      simp [afterClient, OtaWorker.effect, read, Nat.add_assoc]

/-- The chunk goes into the stream to the server. -/
theorem synced_sendall (h : Synced file s) (hpc : s.client.pc = .sendall) :
    Synced file (afterClient s (OtaWorker.effect s.client (.sendall true)) (.sendall true)) := by
  have hexchange := h.exchange
  obtain ⟨places, read⟩ := h.accounted (by simp [InLoop, hpc])
  simp only [Exchange, hpc] at hexchange
  simp only [unsent, hpc, if_true] at places read
  obtain ⟨hchunk, hserver, hclient, hwaiting⟩ := hexchange
  refine ⟨.inl ⟨?_, hclient, hwaiting⟩, fun _ => ⟨?_, ?_⟩⟩
  · simpa [afterClient, hserver] using hchunk
  · simpa [afterClient, OtaWorker.effect, unsent] using places
  · simpa [afterClient, OtaWorker.effect, unsent, Nat.add_assoc] using read

/-- The answer is the acknowledgement of the chunk, or the client leaves its loop. -/
theorem synced_recvChunk (h : Synced file s) {response : List UInt8}
    (hmay : clientMay s (.recv response)) (hpc : s.client.pc = .recvChunk) {text : String}
    (htext : OtaWorker.decode response = some text) :
    Synced file (afterClient s (OtaWorker.effect s.client (.recv response)) (.recv response)) := by
  by_cases hack : OtaWorker.containsAck text = true
  · obtain ⟨rfl, hserver, hclient, hwaiting⟩ :=
      exchange_of_passes h.exchange hmay ⟨hpc, text, htext, hack⟩
    obtain ⟨places, read⟩ := h.accounted (by simp [InLoop, hpc])
    simp only [unsent, hpc, reduceCtorEq, if_false] at places read
    simp only [OtaWorker.effect, hpc, htext, hack, if_true]
    refine ⟨⟨hserver, ?_, hwaiting⟩, fun _ => ⟨places, read⟩⟩
    simp [afterClient, hclient]
  · apply synced_of_left
    simp [afterClient, OtaWorker.effect, hpc, htext, hack, OtaWorker.State.exit]

theorem synced_client {cl : OtaWorker.Label} (h : Synced file s)
    (hstep : step p s (.client cl) = some t) : Synced file t := by
  obtain ⟨hmay, c, hc, rfl⟩ := step_client hstep
  obtain ⟨henabled, rfl⟩ := OtaWorker.step_eq_some.mp hc
  by_cases hleaves : OtaWorker.Leaves s.client cl
  · apply synced_of_left
    rw [afterClient_client, OtaWorker.effect_of_leaves henabled hleaves]
    exact .inr rfl
  obtain ⟨hraises, hfinal⟩ := not_or.mp hleaves
  cases cl with
  | openFile found =>
      have hpc : s.client.pc = .openFile := by simpa [OtaWorker.enabled] using henabled
      have hfound : found = true := by simpa [OtaWorker.Raises] using hraises
      subst hfound
      have hexchange := h.exchange
      obtain ⟨places, read⟩ := h.accounted (by simp [InLoop, hpc])
      simp only [Exchange, hpc] at hexchange
      simp only [unsent, hpc] at places read
      exact ⟨hexchange, fun _ => ⟨places, read⟩⟩
  | read => exact synced_read h (by simpa [OtaWorker.enabled] using henabled)
  | sendall ok =>
      have hok : ok = true := by simpa [OtaWorker.Raises] using hraises
      subst hok
      exact synced_sendall h (by simpa [OtaWorker.enabled] using henabled)
  | recv response =>
      have hpc : s.client.pc = .recvChunk := by
        have hpc : s.client.pc = .recvChunk ∨ s.client.pc = .recvFinal := by
          simpa [OtaWorker.enabled] using henabled
        exact hpc.resolve_right fun hlast => hfinal ⟨hlast, by simp⟩
      obtain ⟨text, htext⟩ := Option.ne_none_iff_exists'.mp hraises
      exact synced_recvChunk h hmay hpc htext
  | timeout =>
      apply synced_of_left
      simp only [afterClient, OtaWorker.effect]
      split <;> exact .inr rfl
  | recvError => exact absurd trivial hraises

end Client

/-! ### The server -/

section Server
variable {p : OtaRetransmit.Platform} {file : List UInt8} {s t : State}

theorem taken_from_stream {l : OtaRetransmit.Label} (u : OtaServerTask.State)
    (hmay : serverMay s (.session l)) :
    l.received ++ (afterServer s u (.session l)).toServer = s.toServer := by
  cases l
  case recv r =>
    cases r with
    | data bytes =>
        obtain ⟨rest, hrest⟩ : bytes <+: s.toServer := hmay
        simp [OtaRetransmit.Label.received, afterServer, ← hrest]
    | closed | error => rfl
  all_goals rfl

/-- What leaves the stream to the server has been received. -/
theorem places_server {l : OtaServerTask.Label} (h : step p s (.server l) = some t) :
    OtaRetransmit.received t.server.session.calls ++ t.toServer =
      OtaRetransmit.received s.server.session.calls ++ s.toServer := by
  obtain ⟨hmay, u, hu, rfl⟩ := step_server h
  cases l with
  | session l =>
      obtain ⟨_, session, hstep, rfl⟩ := step_session hu
      rw [afterServer_server, hosting_session, OtaRetransmit.received_of_step hstep,
        List.append_assoc, taken_from_stream _ hmay]
  | sendAck | sendVerdict | closeSession =>
      have hsame := OtaServerTask.session_of_step hu (by simp) (by simp)
      simp only [afterServer_server, hsame]
      rfl
  | setup _ _ _ | accept _ _ | cleanup | reboot => exact hmay.elim

theorem accounted_server {l : OtaServerTask.Label} (h : Accounted file s)
    (hstep : step p s (.server l) = some t) : Accounted file t := by
  have hplaces := places_server hstep
  obtain ⟨_, u, _, rfl⟩ := step_server hstep
  obtain ⟨places, read⟩ := h
  constructor
  · rw [hplaces]
    simpa only [unsent, afterServer_client] using places
  · rw [hplaces]
    simpa only [unsent, afterServer_client] using read

theorem hosting_pc {server : OtaServerTask.State} {session : OtaRetransmit.State}
    (h : session.pc.waiting = true ∨ session.pc.working = true) :
    (server.hosting session).pc = server.pc := by
  apply hosting_pc_of_running
  rintro code hpc
  simp [hpc, OtaRetransmit.Pc.waiting, OtaRetransmit.Pc.working] at h

/-- Apart from `recv` and the acknowledgement a session does not touch the streams. -/
theorem streams_of_session {l : OtaRetransmit.Label} (u : OtaServerTask.State)
    (hrecv : ∀ r, l ≠ .recv r) (hack : l ≠ .sendAck) :
    (afterServer s u (.session l)).toServer = s.toServer ∧
      (afterServer s u (.session l)).toClient = s.toClient := by
  cases l
  case recv r => exact absurd rfl (hrecv r)
  case sendAck => exact absurd rfl hack
  all_goals exact ⟨rfl, rfl⟩

/-- The step of a waiting session: it takes the chunk that is in flight, or goes on to wait. -/
theorem waiting_server {l : OtaRetransmit.Label} (hs : Waiting s) (hloop : InLoop s)
    (horderly : Orderly p s (.server (.session l)))
    (hstep : step p s (.server (.session l)) = some t) :
    (s.toServer ≠ [] ∧ t.toServer = [] ∧ t.toClient = s.toClient ∧ Working t) ∨
      (t.toServer = s.toServer ∧ t.toClient = s.toClient ∧ Waiting t) := by
  obtain ⟨hfails, hwhole⟩ := horderly hloop
  obtain ⟨hmay, u, hu, rfl⟩ := step_server hstep
  obtain ⟨hpc, session, hsession, rfl⟩ := step_session hu
  obtain ⟨⟨hat, hpossible⟩, _⟩ := OtaRetransmit.step_eq_some.mp hsession
  by_cases hrecv : ∃ r, l = .recv r
  · obtain ⟨r, rfl⟩ := hrecv
    cases r with
    | error => exact absurd rfl hfails
    | closed => exact hwhole.elim
    | data bytes =>
        left
        obtain rfl : bytes = s.toServer := hwhole
        have hlen := (RecvResult.within_data.mp hpossible).1
        have hworking := OtaRetransmit.working_of_recv hsession
        refine ⟨fun hnil => by simp [hnil] at hlen, ?_, rfl, ?_, ?_⟩
        · exact List.drop_length
        · rw [afterServer_server, hosting_pc (.inr hworking)]
          exact hpc
        · rw [afterServer_server, hosting_session]
          exact hworking
  · right
    have hother : ∀ r, l ≠ .recv r := fun r hr => hrecv ⟨r, hr⟩
    have hack : l ≠ .sendAck := by
      rintro rfl
      have hwaiting := hs.2
      simp [hat, OtaRetransmit.Label.pc, OtaRetransmit.Pc.waiting] at hwaiting
    have hwaiting := OtaRetransmit.waiting_of_step hsession hs.2 hfails hother
    obtain ⟨hserver, hclient⟩ := streams_of_session (s := s) (s.server.hosting session) hother hack
    refine ⟨hserver, hclient, ?_, ?_⟩
    · rw [afterServer_server, hosting_pc (.inl hwaiting)]
      exact hpc
    · rw [afterServer_server, hosting_session]
      exact hwaiting

/-- The step of a working session: it acknowledges the chunk, or goes on to work. -/
theorem working_server {l : OtaRetransmit.Label} (hs : Working s) (hloop : InLoop s)
    (horderly : Orderly p s (.server (.session l)))
    (hstep : step p s (.server (.session l)) = some t) :
    t.toServer = s.toServer ∧
      (t.toClient = s.toClient ++ ackBuff ∧ Waiting t ∨ t.toClient = s.toClient ∧ Working t) := by
  obtain ⟨hfails, _⟩ := horderly hloop
  obtain ⟨hmay, u, hu, rfl⟩ := step_server hstep
  obtain ⟨hpc, session, hsession, rfl⟩ := step_session hu
  obtain ⟨⟨hat, _⟩, heffect⟩ := OtaRetransmit.step_eq_some.mp hsession
  by_cases hack : l = .sendAck
  · subst hack
    have hwaiting : session.pc.waiting = true := by rw [← heffect]; rfl
    refine ⟨rfl, .inl ⟨rfl, ?_, ?_⟩⟩
    · rw [afterServer_server, hosting_pc (.inl hwaiting)]
      exact hpc
    · rw [afterServer_server, hosting_session]
      exact hwaiting
  · have hrecv : ∀ r, l ≠ .recv r := by
      rintro r rfl
      have hworking := hs.2
      simp [hat, OtaRetransmit.Label.pc, OtaRetransmit.Pc.working] at hworking
    have hworking := OtaRetransmit.working_of_step hsession hs.2 hfails hack
    obtain ⟨hserver, hclient⟩ := streams_of_session (s := s) (s.server.hosting session) hrecv hack
    refine ⟨hserver, .inr ⟨hclient, ?_, ?_⟩⟩
    · rw [afterServer_server, hosting_pc (.inr hworking)]
      exact hpc
    · rw [afterServer_server, hosting_session]
      exact hworking

/-- While the client is in its loop the server is in its session. -/
theorem session_of_inLoop (h : Exchange s) (hloop : InLoop s) : s.server.pc = .session := by
  obtain ⟨hfinal, hdone⟩ := hloop
  cases hpc : s.client.pc
  case recvFinal => exact absurd hpc hfinal
  case done => exact absurd hpc hdone
  case openFile | read =>
    simp only [Exchange, hpc] at h
    exact h.2.2.1
  case sendall =>
    simp only [Exchange, hpc] at h
    exact h.2.2.2.1
  case recvChunk =>
    simp only [Exchange, hpc] at h
    rcases h with ⟨_, _, h⟩ | ⟨_, _, h⟩ | ⟨_, _, h⟩ <;> exact h.1

theorem exchange_session {l : OtaRetransmit.Label} (h : Exchange s) (hloop : InLoop s)
    (horderly : Orderly p s (.server (.session l)))
    (hstep : step p s (.server (.session l)) = some t) : Exchange t := by
  have hclient := client_of_server_step hstep
  simp only [Exchange, hclient] at h ⊢
  cases hpc : s.client.pc
  case recvFinal | done => trivial
  case openFile | read =>
    simp only [hpc] at h
    obtain ⟨hserver, hnone, hwaiting⟩ := h
    rcases waiting_server hwaiting hloop horderly hstep with ⟨hne, _⟩ | ⟨hs, hc, hw⟩
    · exact absurd hserver hne
    · exact ⟨hs.trans hserver, hc.trans hnone, hw⟩
  case sendall =>
    simp only [hpc] at h
    obtain ⟨hchunk, hserver, hnone, hwaiting⟩ := h
    rcases waiting_server hwaiting hloop horderly hstep with ⟨hne, _⟩ | ⟨hs, hc, hw⟩
    · exact absurd hserver hne
    · exact ⟨hchunk, hs.trans hserver, hc.trans hnone, hw⟩
  case recvChunk =>
    simp only [hpc] at h
    rcases h with ⟨hserver, hnone, hwaiting⟩ | ⟨hserver, hnone, hworking⟩ | ⟨hserver, hack, hwaiting⟩
    · -- the chunk is in flight
      rcases waiting_server hwaiting hloop horderly hstep with ⟨_, hs, hc, hw⟩ | ⟨hs, hc, hw⟩
      · exact .inr (.inl ⟨hs, hc.trans hnone, hw⟩)
      · exact .inl ⟨hs ▸ hserver, hc.trans hnone, hw⟩
    · -- the server is working on it
      obtain ⟨hs, ⟨hc, hw⟩ | ⟨hc, hw⟩⟩ := working_server hworking hloop horderly hstep
      · exact .inr (.inr ⟨hs.trans hserver, by rw [hc, hnone]; rfl, hw⟩)
      · exact .inr (.inl ⟨hs.trans hserver, hc.trans hnone, hw⟩)
    · -- it is acknowledged
      rcases waiting_server hwaiting hloop horderly hstep with ⟨hne, _⟩ | ⟨hs, hc, hw⟩
      · exact absurd hserver hne
      · exact .inr (.inr ⟨hs.trans hserver, hc.trans hack, hw⟩)

theorem synced_server {l : OtaServerTask.Label} (h : Synced file s)
    (horderly : Orderly p s (.server l)) (hstep : step p s (.server l) = some t) :
    Synced file t := by
  have hclient := client_of_server_step hstep
  by_cases hloop : InLoop s
  · have hpc := session_of_inLoop h.exchange hloop
    refine ⟨?_, fun _ => accounted_server (h.accounted hloop) hstep⟩
    cases l with
    | session l => exact exchange_session h.exchange hloop horderly hstep
    | sendAck | sendVerdict | closeSession =>
        obtain ⟨_, u, hu, _⟩ := step_server hstep
        simp [OtaServerTask.step, hpc] at hu
    | setup _ _ _ | accept _ _ | cleanup | reboot => exact (step_server hstep).1.elim
  · apply synced_of_left
    rw [hclient]
    by_contra hleft
    exact hloop (not_or.mp hleft)

end Server

theorem synced_step (p : OtaRetransmit.Platform) {file : List UInt8} (s : State) (l : Label)
    (t : State) (h : Synced file s) (horderly : Orderly p s l) (hstep : step p s l = some t) :
    Synced file t := by
  cases l with
  | client cl => exact synced_client h hstep
  | server sl => exact synced_server h horderly hstep
  | clientClose =>
      obtain ⟨hdone, rfl⟩ := step_clientClose hstep
      exact synced_of_left (.inr hdone)

theorem ackMeansReceived_of_synced (p : OtaRetransmit.Platform) {file : List UInt8} (s : State)
    (l : Label) (t : State) (h : Synced file s) (_ : Orderly p s l)
    (hstep : step p s l = some t) : AckMeansReceived file s l := by
  cases l with
  | server sl | clientClose => trivial
  | client cl =>
      cases cl
      case recv response =>
        intro hpasses
        obtain ⟨hmay, _⟩ := step_client hstep
        obtain ⟨_, hserver, _, hwaiting⟩ := exchange_of_passes h.exchange hmay hpasses
        obtain ⟨places, read⟩ := h.accounted (by simp [InLoop, hpasses.1])
        simp only [unsent, hpasses.1, hserver, reduceCtorEq, if_false, List.append_nil]
          at places read
        refine ⟨?_, fun code hcode => ?_⟩
        · rw [read, ← places, List.take_left]
        · have hpc := hwaiting.2
          simp [hcode, OtaRetransmit.Pc.waiting] at hpc
      all_goals trivial

/-- In every run whose steps are orderly, a chunk whose check passes has been received, with all
the chunks before it, by a session that has not failed. -/
theorem chunk_ack_means_received (p : OtaRetransmit.Platform) (server : OtaServerTask.State)
    (rxBuffer : Nat → UInt8) (file : List UInt8) (chunkSize : Nat) (ls : List Label)
    (horderly : EachStep (step p) (Orderly p) (connected server rxBuffer file chunkSize) ls) :
    EachStep (step p) (AckMeansReceived file) (connected server rxBuffer file chunkSize) ls :=
  eachStep_of_eachStep (ackMeansReceived_of_synced p) (synced_step p)
    (synced_connected server rxBuffer file chunkSize) horderly

/-- Two chunks of one byte each, acknowledged one after the other. -/
def orderlyRun : List Label :=
  [.client (.openFile true), .client .read, .client (.sendall true),
    .server (.session (.stateOf false)), .server (.session (.bootPartition true)),
    .server (.session (.nextUpdatePartition true 0 0)),
    .server (.session (.recv (.data [1]))), .server (.session .sendAck), .client (.recv ackBuff),
    .client .read, .client (.sendall true),
    .server (.session (.recv (.data [2]))), .server (.session .sendAck), .client (.recv ackBuff)]

theorem chunk_ack_means_received_session :
    EachStep (step OtaRetransmit.espIdf) (AckMeansReceived [1, 2])
        (connected OtaServerTask.start (fun _ => 0) [1, 2] 1) orderlyRun ∧
      ((run (step OtaRetransmit.espIdf) (connected OtaServerTask.start (fun _ => 0) [1, 2] 1)
        orderlyRun).map fun s => s.client.totalTxSize) = some 2 :=
  ⟨chunk_ack_means_received OtaRetransmit.espIdf OtaServerTask.start (fun _ => 0) [1, 2] 1
    orderlyRun (by decide +kernel), by decide +kernel⟩

/-- A chunk of two bytes of which the server has received and acknowledged the first. -/
def halfChunkRun : List Label :=
  [.client (.openFile true), .client .read, .client (.sendall true),
    .server (.session (.stateOf false)), .server (.session (.bootPartition true)),
    .server (.session (.nextUpdatePartition true 0 0)),
    .server (.session (.recv (.data [1]))), .server (.session .sendAck)]

theorem half_chunk_is_acknowledged :
    ¬EachStep (step OtaRetransmit.espIdf) (AckMeansReceived [1, 2])
      (connected OtaServerTask.start (fun _ => 0) [1, 2] 2)
      (halfChunkRun ++ [.client (.recv ackBuff)]) := by
  intro h
  have hrun : ((run (step OtaRetransmit.espIdf)
      (connected OtaServerTask.start (fun _ => 0) [1, 2] 2) halfChunkRun).map fun s =>
        (s.client.pc, OtaRetransmit.received s.server.session.calls, s.client.totalTxSize)) =
          some (.recvChunk, [1], 2) := by decide +kernel
  have hmore : (run (step OtaRetransmit.espIdf)
      (connected OtaServerTask.start (fun _ => 0) [1, 2] 2)
      (halfChunkRun ++ [.client (.recv ackBuff)])).isSome = true := by decide +kernel
  obtain ⟨s, hs, hfields⟩ := Option.map_eq_some_iff.mp hrun
  simp only [Prod.mk.injEq] at hfields
  obtain ⟨hpc, hreceived, htotal⟩ := hfields
  obtain ⟨u, hu⟩ := Option.isSome_iff_exists.mp hmore
  rw [run_append_of_run hs] at hu
  obtain ⟨t, hstep, _⟩ := run_cons_eq_some.mp hu
  have hpasses : Passes s ackBuff := ⟨hpc, "ACK", by decide +kernel, by decide +kernel⟩
  have hwhole := (h.of_run hs hstep hpasses).1
  rw [hreceived, htotal] at hwhole
  exact absurd hwhole (by decide)

end InfoGlobe.OtaLink
