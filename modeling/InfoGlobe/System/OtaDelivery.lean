import InfoGlobe.System.OtaLink
import InfoGlobe.System.UpdateSafety

/-!
Delivery of an update. Over every interleaving of the client, the streams and the server, what has
come in at the server, what is in flight and what the client has not sent make up the file; so the
flash holds a part of the file from its beginning, and the verification makes it the whole file.
-/

namespace InfoGlobe.OtaDelivery
open StepSystem FlatMemory OtaLink OtaRetransmit

/-- `esp_ota_end` succeeds on an open handle with an image that passes the verification. -/
def EndVerifies (Good : List UInt8 → Prop) (s : OtaLink.State) : OtaLink.Label → Prop
  | .server (.session (.otaEnd true)) =>
      (.otaBegin true ∈ s.server.session.calls ∧ written s.server.session.calls ≠ []) ∧
        Good (written s.server.session.calls)
  | _ => True

instance (Good : List UInt8 → Prop) [DecidablePred Good] (s : OtaLink.State)
    (l : OtaLink.Label) : Decidable (EndVerifies Good s l) := by
  unfold EndVerifies
  split <;> infer_instance

/-- The bytes that came in at the server. -/
def arrived (s : OtaLink.State) : List UInt8 := received s.server.session.calls

/-- The bytes that went to the flash. -/
def flashed (s : OtaLink.State) : List UInt8 := written s.server.session.calls

/-- What the client has read from the file and not sent, and what it has not read. -/
def unsent (c : OtaWorker.State) : List UInt8 :=
  (if c.pc = .sendall then c.chunk else []) ++ c.binaryFile

structure Delivers (file : List UInt8) (s : OtaLink.State) : Prop where
  wire : arrived s ++ s.toServer <+: file
  flash : flashed s <+: file
  /-- A session that returns 0 has the whole file in the flash. -/
  complete : s.server.session.pc = .returned 0 → flashed s = file

structure Inv (Good : List UInt8 → Prop) (file : List UInt8) (s : OtaLink.State) : Prop where
  consistent : Consistent s.server.session
  wire : arrived s ++ s.toServer <+: file
  whole : s.client.pc ≠ .done → arrived s ++ s.toServer ++ unsent s.client = file
  flash : flashed s <+: arrived s
  verified : s.server.session.pc = .setBootPartition ∨ s.server.session.pc = .returned 0 →
    Good (flashed s)

theorem Inv.delivers {Good : List UInt8 → Prop} {file : List UInt8}
    (hfile : ∀ part, part <+: file → Good part → part = file) {s : OtaLink.State}
    (h : Inv Good file s) : Delivers file s := by
  have hflash : flashed s <+: file :=
    h.flash.trans ((List.prefix_append (arrived s) s.toServer).trans h.wire)
  exact ⟨h.wire, hflash, fun hpc => hfile _ hflash (h.verified (.inr hpc))⟩

theorem inv_connected (Good : List UInt8 → Prop) (server : OtaServerTask.State)
    (rxBuffer : Nat → UInt8) (file : List UInt8) (chunkSize : Nat) :
    Inv Good file (connected server rxBuffer file chunkSize) := by
  refine ⟨consistent_start rxBuffer, List.nil_prefix, fun _ => ?_, List.nil_prefix, ?_⟩
  · simp [connected, arrived, unsent, OtaWorker.start, OtaRetransmit.start, received]
  · simp [connected, OtaRetransmit.start]

/-! ### The client -/

section Client
variable {Good : List UInt8 → Prop} {file : List UInt8} {s t : OtaLink.State}

/-- The client keeps what it has not sent, until it gives up. -/
theorem unsent_of_step {c d : OtaWorker.State} {l : OtaWorker.Label}
    (h : OtaWorker.step c l = some d) (hdone : d.pc ≠ .done) :
    unsent c = (if l = .sendall true then c.chunk else []) ++ unsent d := by
  obtain ⟨henabled, rfl⟩ := OtaWorker.step_eq_some.mp h
  cases l with
  | openFile found =>
      cases found with
      | true =>
          have hpc : c.pc = .openFile := by simpa [OtaWorker.enabled] using henabled
          simp [unsent, OtaWorker.effect, hpc]
      | false => exact absurd rfl hdone
  | read =>
      have hpc : c.pc = .read := by simpa [OtaWorker.enabled] using henabled
      by_cases hchunk : c.binaryFile.take c.chunkSize = []
      · have hrest := List.take_append_drop c.chunkSize c.binaryFile
        rw [hchunk, List.nil_append] at hrest
        simp [unsent, OtaWorker.effect, hpc, hchunk, hrest]
      · simp [unsent, OtaWorker.effect, hpc, hchunk]
  | sendall ok =>
      cases ok with
      | true =>
          have hpc : c.pc = .sendall := by simpa [OtaWorker.enabled] using henabled
          simp [unsent, OtaWorker.effect, hpc]
      | false => exact absurd rfl hdone
  | recv response =>
      have hpc : c.pc = .recvChunk ∨ c.pc = .recvFinal := by
        simpa [OtaWorker.enabled] using henabled
      rcases hpc with hpc | hpc
      · cases htext : OtaWorker.decode response with
        | none => exact absurd (by simp only [OtaWorker.effect, hpc, htext]; rfl) hdone
        | some text =>
            cases hack : OtaWorker.containsAck text with
            | true => simp [unsent, OtaWorker.effect, hpc, htext, hack]
            | false => exact absurd (by simp [OtaWorker.effect, hpc, htext, hack]; rfl) hdone
      · exact absurd (by simp only [OtaWorker.effect, hpc]; rfl) hdone
  | timeout =>
      simp only [OtaWorker.effect] at hdone
      split at hdone <;> exact absurd rfl hdone
  | recvError => exact absurd rfl hdone

theorem toServer_afterClient (s : OtaLink.State) (c : OtaWorker.State) (l : OtaWorker.Label) :
    (afterClient s c l).toServer =
      s.toServer ++ if l = .sendall true then s.client.chunk else [] := by
  unfold afterClient
  split <;> simp

theorem inv_client (h : Inv Good file s) {l : OtaWorker.Label} {p : Platform}
    (hstep : OtaLink.step p s (.client l) = some t) : Inv Good file t := by
  obtain ⟨_, c, hc, rfl⟩ := OtaLink.step_client hstep
  have hnotDone := OtaWorker.not_done_of_step hc
  have hwhole := h.whole hnotDone
  have hserver := afterClient_server s c l
  have harrived : arrived (afterClient s c l) = arrived s := by rw [arrived, hserver]; rfl
  have hflashed : flashed (afterClient s c l) = flashed s := by rw [flashed, hserver]; rfl
  have hkept : ∀ rest, unsent s.client = (if l = .sendall true then s.client.chunk else []) ++ rest →
      arrived (afterClient s c l) ++ (afterClient s c l).toServer ++ rest = file := by
    intro rest hrest
    rw [harrived, toServer_afterClient, ← hwhole, hrest]
    simp only [List.append_assoc]
  refine ⟨hserver ▸ h.consistent, ?_, ?_, ?_, ?_⟩
  · by_cases hl : l = .sendall true
    · have hpc : s.client.pc = .sendall := by
        have henabled := (OtaWorker.step_eq_some.mp hc).1
        simpa [hl, OtaWorker.enabled] using henabled
      exact ⟨s.client.binaryFile, hkept _ (by simp [unsent, hl, hpc])⟩
    · rw [harrived, toServer_afterClient, if_neg hl, List.append_nil]
      exact h.wire
  · intro hdone
    rw [afterClient_client] at hdone ⊢
    exact hkept _ (unsent_of_step hc hdone)
  · rw [harrived, hflashed]
    exact h.flash
  · rw [hflashed, hserver]
    exact h.verified

end Client

/-! ### The server -/

/-- Everything that is written has come in before. -/
theorem written_of_step {p : Platform} {s t : OtaRetransmit.State} {l : OtaRetransmit.Label}
    (h : OtaRetransmit.step p s l = some t) (hc : Consistent s)
    (hflash : written s.calls <+: received s.calls) : written t.calls <+: received t.calls := by
  have hpc := (OtaRetransmit.step_eq_some.mp h).1.1
  have hcalls := calls_of_step h
  have hreceived := received_of_step h
  have hgrows : received s.calls <+: received t.calls := ⟨l.received, hreceived.symm⟩
  by_cases hl : l.pc ≠ .otaBegin ∧ l.pc ≠ .otaWrite
  · rw [(UpdateSafety.handle_of_step h hl).1]
    exact hflash.trans hgrows
  · cases l with
    | otaBegin ok now =>
        have hsame : written t.calls = written s.calls := by
          rw [hcalls]
          cases ok <;> simp [Label.calls, written, Call.written]
        rw [hsame]
        exact hflash.trans hgrows
    | otaWrite ok =>
        have live := hc.live (by simp [Running, hpc, Label.pc])
        have hall : written t.calls = received s.calls := by
          rw [hcalls, live.pending]
          cases ok <;> simp [Label.calls, written, Call.written]
        rw [hall]
        exact hgrows
    | stateOf _ | bootPartition _ | nextUpdatePartition _ _ _ | recv _ | lastInvalid _
    | ticks _ _ _ _ | sendAck | otaEnd _ | setBootPartition _ => simp [Label.pc] at hl

section Server
variable {Good : List UInt8 → Prop} {file : List UInt8} {s t : OtaLink.State} {p : Platform}

/-- The image has been verified when the boot partition is set. -/
theorem verified_of_step {u v : OtaRetransmit.State} {l : OtaRetransmit.Label}
    (h : OtaRetransmit.step p u l = some v)
    (hverified : u.pc = .setBootPartition → Good (written u.calls))
    (hend : l = .otaEnd true → Good (written u.calls))
    (hv : v.pc = .setBootPartition ∨ v.pc = .returned 0) : Good (written v.calls) := by
  rcases hv with hset | hret
  · obtain rfl := (UpdateSafety.ending_of_step h).2 hset
    rw [(UpdateSafety.handle_of_step h (by simp [Label.pc])).1]
    exact hend rfl
  · obtain rfl := (UpdateSafety.returned_zero_iff h).mp hret
    rw [(UpdateSafety.handle_of_step h (by simp [Label.pc])).1]
    exact hverified (OtaRetransmit.step_eq_some.mp h).1.1

/-- What the session takes from the stream has arrived. -/
theorem wire_of_session {l : OtaRetransmit.Label} {session : OtaRetransmit.State}
    (hmay : serverMay s (.session l))
    (hsession : OtaRetransmit.step p s.server.session l = some session) (v : OtaServerTask.State) :
    received session.calls ++ (afterServer s v (.session l)).toServer =
      arrived s ++ s.toServer := by
  rw [received_of_step hsession, arrived, List.append_assoc]
  congr 1
  cases l with
  | recv r =>
      cases r with
      | data bytes =>
          obtain ⟨rest, hrest⟩ := hmay
          simp [afterServer, Label.received, ← hrest]
      | closed | error => rfl
  | stateOf _ | bootPartition _ | nextUpdatePartition _ _ _ | lastInvalid _ | otaBegin _ _
  | otaWrite _ | ticks _ _ _ _ | sendAck | otaEnd _ | setBootPartition _ => rfl

theorem inv_session (h : Inv Good file s) {l : OtaRetransmit.Label}
    (contract : EndVerifies Good s (.server (.session l)))
    (hstep : OtaLink.step p s (.server (.session l)) = some t) : Inv Good file t := by
  obtain ⟨hmay, v, hv, rfl⟩ := OtaLink.step_server hstep
  obtain ⟨_, session, hsession, rfl⟩ := OtaServerTask.step_session hv
  have hafter : (afterServer s (s.server.hosting session) (.session l)).server.session = session := by
    rw [afterServer_server, OtaServerTask.hosting_session]
  have hwire : arrived (afterServer s (s.server.hosting session) (.session l)) ++
      (afterServer s (s.server.hosting session) (.session l)).toServer = arrived s ++ s.toServer := by
    rw [arrived, hafter]
    exact wire_of_session hmay hsession _
  have hcontract : EndContract s.server.session l := by
    rintro rfl
    exact contract.1
  refine ⟨?_, ?_, ?_, ?_, ?_⟩
  · rw [hafter]
    exact consistent_step p _ l session h.consistent hcontract hsession
  · rw [hwire]
    exact h.wire
  · rw [hwire, afterServer_client]
    exact h.whole
  · rw [flashed, arrived, hafter]
    exact written_of_step hsession h.consistent h.flash
  · rw [flashed, hafter]
    refine verified_of_step hsession (fun hpc => h.verified (.inl hpc)) ?_
    rintro rfl
    exact contract.2

/-- The calls around the session. -/
theorem inv_around (h : Inv Good file s) {l : OtaServerTask.Label}
    (hl : ∀ sl, l ≠ .session sl) (hstep : OtaLink.step p s (.server l) = some t) :
    Inv Good file t := by
  obtain ⟨hmay, v, hv, rfl⟩ := OtaLink.step_server hstep
  have hsession : v.session = s.server.session := by
    refine OtaServerTask.session_of_step hv hl ?_
    rintro sock rxBuffer rfl
    exact hmay
  have hafter : (afterServer s v l).server.session = s.server.session := by
    rw [afterServer_server, hsession]
  have hstream : (afterServer s v l).toServer = s.toServer := by
    cases l with
    | session sl => exact absurd rfl (hl sl)
    | setup _ _ _ | accept _ _ | sendAck | sendVerdict | closeSession | cleanup | reboot => rfl
  have harrived : arrived (afterServer s v l) = arrived s := by rw [arrived, hafter]; rfl
  have hflashed : flashed (afterServer s v l) = flashed s := by rw [flashed, hafter]; rfl
  exact ⟨hafter ▸ h.consistent, by rw [harrived, hstream]; exact h.wire,
    by rw [harrived, hstream, afterServer_client]; exact h.whole,
    by rw [harrived, hflashed]; exact h.flash, by rw [hflashed, hafter]; exact h.verified⟩

theorem inv_step (p : Platform) (s : OtaLink.State) (l : OtaLink.Label) (t : OtaLink.State)
    (h : Inv Good file s) (contract : EndVerifies Good s l) (hstep : OtaLink.step p s l = some t) :
    Inv Good file t := by
  cases l with
  | client l => exact inv_client h hstep
  | server l =>
      by_cases hl : ∃ sl, l = .session sl
      · obtain ⟨sl, rfl⟩ := hl
        exact inv_session h contract hstep
      · exact inv_around h (fun sl hsl => hl ⟨sl, hsl⟩) hstep
  | clientClose =>
      obtain ⟨_, rfl⟩ := OtaLink.step_clientClose hstep
      exact ⟨h.consistent, h.wire, h.whole, h.flash, h.verified⟩

end Server

/-- What the flash gets is the file from its beginning, over every cut of the streams and every end
of the client; and a session that returns 0 has installed the whole file, given that no proper part
of it passes the verification. -/
theorem update_delivered {Good : List UInt8 → Prop} (p : Platform) (server : OtaServerTask.State)
    (rxBuffer : Nat → UInt8) (file : List UInt8) (chunkSize : Nat)
    (hfile : ∀ part, part <+: file → Good part → part = file) (ls : List OtaLink.Label)
    (contract : EachStep (OtaLink.step p) (EndVerifies Good)
      (connected server rxBuffer file chunkSize) ls) :
    Always (OtaLink.step p) (Delivers file) (connected server rxBuffer file chunkSize) ls :=
  always_of_eachStep (fun _ h => h.delivers hfile) (inv_step p)
    (inv_connected Good server rxBuffer file chunkSize) contract

/-- A header of 288 bytes and an image of three. -/
def imageFile : List UInt8 := List.replicate 288 0xe9 ++ [1, 2, 3]

def HasLength (n : Nat) (image : List UInt8) : Prop := image.length = n

instance (n : Nat) : DecidablePred (HasLength n) := fun _ => inferInstanceAs (Decidable (_ = _))

def acknowledged : List OtaLink.Label :=
  [.server (.session .sendAck), .client (.recv [0x41, 0x43, 0x4b]), .client .read]

/-- The file goes out in three chunks; the last response does not come, and the client hangs up. -/
def imageRun : List OtaLink.Label :=
  [.client (.openFile true), .client .read, .client (.sendall true),
    .server (.session (.stateOf false)), .server (.session (.bootPartition true)),
    .server (.session (.nextUpdatePartition true 0 0)),
    .server (.session (.recv (.data (List.replicate 145 0xe9))))] ++ acknowledged ++
  [.client (.sendall true),
    .server (.session (.recv (.data (List.replicate 143 0xe9 ++ [1, 2])))),
    .server (.session (.lastInvalid ⟨false, none, []⟩)), .server (.session (.otaBegin true 0))] ++
  acknowledged ++
  [.client (.sendall true), .server (.session (.recv (.data [3]))),
    .server (.session (.otaWrite true)), .server (.session (.ticks 0 0 0 0))] ++ acknowledged ++
  [.client .timeout, .clientClose, .server (.session (.recv .closed)),
    .server (.session (.otaEnd true)), .server (.session (.setBootPartition true))]

theorem update_delivered_image :
    ∃ s, run (OtaLink.step espIdf) (connected OtaServerTask.start (fun _ => 0) imageFile 145)
        imageRun = some s ∧
      s.server.session.pc = .returned 0 ∧ flashed s = imageFile := by
  have hrun : (run (OtaLink.step espIdf)
      (connected OtaServerTask.start (fun _ => 0) imageFile 145) imageRun).map
        (fun s => s.server.session.pc) = some (.returned 0) := by
    decide +kernel
  obtain ⟨s, hs, hpc⟩ := Option.map_eq_some_iff.mp hrun
  have hlength : imageFile.length = 291 := by decide +kernel
  have hfile : ∀ part, part <+: imageFile → HasLength 291 part → part = imageFile :=
    fun part hpart hlen => hpart.eq_of_length (hlen.trans hlength.symm)
  have hdelivers := update_delivered espIdf OtaServerTask.start (fun _ => 0) imageFile 145 hfile
    imageRun (by decide +kernel)
  exact ⟨s, hs, hpc, (hdelivers.last hs).complete hpc⟩

end InfoGlobe.OtaDelivery
