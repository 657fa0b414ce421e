import InfoGlobe.System.OtaLink

/-!
When the two ends of an update agree on its outcome. The client's last status is 0 whenever its
last `recv` returns at all, whatever it says; the server's code is 0 when none of its calls fails.
Nothing ties the one to the other.
-/

namespace InfoGlobe.OtaLink
open StepSystem

/-- While the client waits for its final response, one is in flight or the server has closed; or
something raises in the client. -/
def Answered (s : State) : Label → Prop
  | .client l => OtaWorker.Raises l ∨
      s.client.pc = .recvFinal ∧ (s.toClient ≠ [] ∨ s.serverClosed = true)
  | .server _ | .clientClose => False

/-- A call of the server's session fails. -/
def CallFails (p : OtaRetransmit.Platform) (s : State) : Label → Prop
  | .server (.session l) => OtaRetransmit.Fails p s.server.session l
  | .server _ | .client _ | .clientClose => False

def ClientDone (s : State) : Prop := s.client.pc = .done

def ServerDone (s : State) : Prop := ∃ code, s.server.session.pc = .returned code

/-- The last status that the client has emitted is 0. -/
def ClientContent (s : State) : Prop := s.client.exitStatus.getLast? = some 0

/-- `do_retransmit` has returned a code other than 0. -/
def ServerRefused (s : State) : Prop :=
  ∃ code, code ≠ 0 ∧ s.server.session.pc = .returned code

section Verdicts
variable {p : OtaRetransmit.Platform} {s t : State} {l : Label}

theorem client_of_step (h : step p s l = some t) :
    (∃ cl, l = .client cl ∧ OtaWorker.step s.client cl = some t.client) ∨
      (∀ cl, l ≠ .client cl) ∧ t.client = s.client := by
  cases l with
  | client cl =>
      obtain ⟨_, c, hc, rfl⟩ := step_client h
      exact .inl ⟨cl, rfl, by rwa [afterClient_client]⟩
  | server sl => exact .inr ⟨by simp, client_of_server_step h⟩
  | clientClose =>
      obtain ⟨_, rfl⟩ := step_clientClose h
      exact .inr ⟨by simp, rfl⟩

/-- At the final `recv` the streams decide whether it can time out. -/
theorem answered_iff_leaves {cl : OtaWorker.Label} (h : step p s (.client cl) = some t) :
    Answered s (.client cl) ↔ OtaWorker.Leaves s.client cl := by
  obtain ⟨hmay, c, hc, _⟩ := step_client h
  obtain ⟨henabled, _⟩ := OtaWorker.step_eq_some.mp hc
  refine or_congr_right (and_congr_right fun hfinal => ?_)
  cases cl with
  | openFile _ | read | sendall _ => simp [OtaWorker.enabled, hfinal] at henabled
  | timeout =>
      obtain ⟨hopen, hnil⟩ := hmay
      simp [hopen, hnil]
  | recvError => exact iff_of_true (.inr hmay) (by simp)
  | recv response =>
      refine iff_of_true ?_ (by simp)
      cases response with
      | nil => exact .inr hmay.1
      | cons b response =>
          left
          intro hnil
          have hpart := hmay.1
          rw [hnil] at hpart
          exact absurd (List.prefix_nil.mp hpart) (by simp)

theorem session_of_step (h : step p s l = some t) :
    (∃ sl, l = .server (.session sl) ∧
        OtaRetransmit.step p s.server.session sl = some t.server.session) ∨
      (∀ sl, l ≠ .server (.session sl)) ∧ t.server.session = s.server.session := by
  cases l with
  | client cl =>
      obtain ⟨_, c, _, rfl⟩ := step_client h
      exact .inr ⟨by simp, by rw [afterClient_server]⟩
  | clientClose =>
      obtain ⟨_, rfl⟩ := step_clientClose h
      exact .inr ⟨by simp, rfl⟩
  | server l =>
      obtain ⟨hmay, u, hu, rfl⟩ := step_server h
      rw [afterServer_server]
      by_cases hsession : ∃ sl, l = .session sl
      · obtain ⟨sl, rfl⟩ := hsession
        obtain ⟨_, session, hstep, rfl⟩ := OtaServerTask.step_session hu
        exact .inl ⟨sl, rfl, by rwa [OtaServerTask.hosting_session]⟩
      · have hother : ∀ sl, l ≠ .session sl := fun sl hl => hsession ⟨sl, hl⟩
        have haccept : ∀ sock rxBuffer, l ≠ .accept sock rxBuffer := by
          rintro sock rxBuffer rfl
          exact hmay
        refine .inr ⟨?_, OtaServerTask.session_of_step hu hother haccept⟩
        intro sl hl
        exact hother sl (Label.server.inj hl)

theorem clientContent_final (hs : ClientDone s) (h : step p s l = some t) :
    ClientDone t ∧ (ClientContent t ↔ ClientContent s) ∧ ¬Answered s l := by
  rcases client_of_step h with ⟨cl, rfl, hcl⟩ | ⟨hother, hsame⟩
  · exact absurd hs (OtaWorker.not_done_of_step hcl)
  · refine ⟨?_, ?_, ?_⟩
    · simpa only [ClientDone, hsame] using hs
    · simp only [ClientContent, hsame]
    · cases l with
      | client cl => exact absurd rfl (hother cl)
      | server _ | clientClose => exact fun h => h

theorem clientContent_earned (hs : ¬ClientDone s) (h : step p s l = some t) :
    (Answered s l → ClientDone t ∧ ClientContent t) ∧
      (¬Answered s l → ClientDone t → ¬ClientContent t) := by
  rcases client_of_step h with ⟨cl, rfl, hcl⟩ | ⟨hother, hsame⟩
  · rw [answered_iff_leaves h]
    exact OtaWorker.last_status_of_step hcl
  · have hrunning : ¬ClientDone t := by simpa only [ClientDone, hsame] using hs
    refine ⟨?_, fun _ hdone => absurd hdone hrunning⟩
    cases l with
    | client cl => exact absurd rfl (hother cl)
    | server _ | clientClose => exact False.elim

theorem serverRefused_final (hs : ServerDone s) (h : step p s l = some t) :
    ServerDone t ∧ (ServerRefused t ↔ ServerRefused s) ∧ ¬CallFails p s l := by
  obtain ⟨code, hcode⟩ := hs
  rcases session_of_step h with ⟨sl, rfl, hsl⟩ | ⟨hother, hsame⟩
  · exact absurd hcode (OtaRetransmit.not_returned_of_step hsl code)
  · refine ⟨⟨code, by rw [hsame, hcode]⟩, by simp only [ServerRefused, hsame], ?_⟩
    cases l with
    | server sl =>
        cases sl
        case session sl => exact absurd rfl (hother sl)
        all_goals exact fun h => h
    | client _ | clientClose => exact fun h => h

theorem serverRefused_earned (hs : ¬ServerDone s) (h : step p s l = some t) :
    (CallFails p s l → ServerDone t ∧ ServerRefused t) ∧
      (¬CallFails p s l → ServerDone t → ¬ServerRefused t) := by
  rcases session_of_step h with ⟨sl, rfl, hsl⟩ | ⟨hother, hsame⟩
  · obtain ⟨hfails, hsucceeds⟩ := OtaRetransmit.returned_of_step hsl
    constructor
    · intro hf
      obtain ⟨code, hne, hcode⟩ := hfails hf
      exact ⟨⟨code, hcode⟩, code, hne, hcode⟩
    · rintro hf _ ⟨code, hne, hcode⟩
      exact hne (hsucceeds hf code hcode)
  · have hrunning : ¬ServerDone t := by simpa only [ServerDone, hsame] using hs
    refine ⟨?_, fun _ hdone => absurd hdone hrunning⟩
    cases l with
    | server sl =>
        cases sl
        case session sl => exact absurd rfl (hother sl)
        all_goals exact False.elim
    | client _ | clientClose => exact False.elim

end Verdicts

/-- Both ends have the same opinion on the update. -/
def Agrees (s : State) (code : Int) : Prop := s.client.exitStatus.getLast? = some 0 ↔ code = 0

/-- A finished update ends in agreement exactly when the client was answered and no call of the
server failed, or the client was not answered and one did. -/
theorem agrees_iff (p : OtaRetransmit.Platform) (server : OtaServerTask.State)
    (rxBuffer : Nat → UInt8) (file : List UInt8) (chunkSize : Nat) (ls : List Label) {s : State}
    {code : Int} (hr : run (step p) (connected server rxBuffer file chunkSize) ls = some s)
    (hclient : s.client.pc = .done) (hserver : s.server.session.pc = .returned code) :
    Agrees s code ↔
      (SomeStep (step p) Answered (connected server rxBuffer file chunkSize) ls ↔
        ¬SomeStep (step p) (CallFails p) (connected server rxBuffer file chunkSize) ls) := by
  have hcontent : ClientContent s ↔
      SomeStep (step p) Answered (connected server rxBuffer file chunkSize) ls :=
    verdict_iff_someStep (fun _ _ _ => clientContent_final) (fun _ _ _ => clientContent_earned)
      (by simp [ClientDone, connected, OtaWorker.start]) hr hclient
  have hrefused : ServerRefused s ↔
      SomeStep (step p) (CallFails p) (connected server rxBuffer file chunkSize) ls :=
    verdict_iff_someStep (fun _ _ _ => serverRefused_final) (fun _ _ _ => serverRefused_earned)
      (by simp [ServerDone, connected, OtaRetransmit.start]) hr ⟨code, hserver⟩
  have hcode : code = 0 ↔ ¬ServerRefused s := by
    constructor
    · rintro rfl ⟨code, hne, hcode⟩
      exact hne (OtaRetransmit.Pc.returned.inj (hcode.symm.trans hserver))
    · intro h
      by_contra hne
      exact h ⟨code, hne, hserver⟩
  rw [← hcontent, ← hrefused, Agrees, hcode]
  rfl

/-- There is no boot partition: the session ends before it begins, and the client gets the first
byte of the response. -/
def refusedRun : List Label :=
  [.client (.openFile true), .client .read, .client (.sendall true),
    .server (.session (.stateOf false)), .server (.session (.bootPartition false)),
    .server .sendAck, .client (.recv [0x41])]

theorem agrees_iff_refused :
    ∃ s, run (step OtaRetransmit.espIdf) (connected OtaServerTask.start (fun _ => 0) [1] 1)
        refusedRun = some s ∧ s.client.exitStatus = [-2] ∧
      (Agrees s (-1) ↔
        (SomeStep (step OtaRetransmit.espIdf) Answered
            (connected OtaServerTask.start (fun _ => 0) [1] 1) refusedRun ↔
          ¬SomeStep (step OtaRetransmit.espIdf) (CallFails OtaRetransmit.espIdf)
            (connected OtaServerTask.start (fun _ => 0) [1] 1) refusedRun)) := by
  have hrun : ((run (step OtaRetransmit.espIdf)
      (connected OtaServerTask.start (fun _ => 0) [1] 1) refusedRun).map
        fun s => (s.client.pc, s.server.session.pc, s.client.exitStatus)) =
          some (.done, .returned (-1), [-2]) := by decide +kernel
  obtain ⟨s, hs, hfields⟩ := Option.map_eq_some_iff.mp hrun
  simp only [Prod.mk.injEq] at hfields
  obtain ⟨hclient, hserver, hstatus⟩ := hfields
  exact ⟨s, hs, hstatus, agrees_iff OtaRetransmit.espIdf OtaServerTask.start (fun _ => 0) [1] 1
    refusedRun hs hclient hserver⟩

/-- A file of two bytes goes out as one chunk, is received in two pieces and acknowledged twice.
The second "ACK" passes for the final response; the image has no header, and `esp_ota_end` fails. -/
def leftoverAckRun : List Label :=
  [.client (.openFile true), .client .read, .client (.sendall true),
    .server (.session (.stateOf false)), .server (.session (.bootPartition true)),
    .server (.session (.nextUpdatePartition true 0 0)),
    .server (.session (.recv (.data [1]))), .server (.session .sendAck),
    .server (.session (.recv (.data [2]))), .server (.session .sendAck),
    .client (.recv [0x41, 0x43, 0x4b]), .client .read, .client (.recv [0x41, 0x43, 0x4b]),
    .clientClose, .server (.session (.recv .closed)), .server (.session (.otaEnd false))]

theorem leftover_ack_disagrees :
    ∃ s, run (step OtaRetransmit.espIdf) (connected OtaServerTask.start (fun _ => 0) [1, 2] 2)
        leftoverAckRun = some s ∧
      s.client.pc = .done ∧ s.server.session.pc = .returned (-8) ∧ ¬Agrees s (-8) := by
  have hrun : ((run (step OtaRetransmit.espIdf)
      (connected OtaServerTask.start (fun _ => 0) [1, 2] 2) leftoverAckRun).map
        fun s => (s.client.pc, s.server.session.pc, s.client.exitStatus)) =
          some (.done, .returned (-8), [0]) := by decide +kernel
  obtain ⟨s, hs, hfields⟩ := Option.map_eq_some_iff.mp hrun
  simp only [Prod.mk.injEq] at hfields
  obtain ⟨hclient, hserver, hstatus⟩ := hfields
  refine ⟨s, hs, hclient, hserver, ?_⟩
  rw [Agrees, hstatus]
  decide

end InfoGlobe.OtaLink
