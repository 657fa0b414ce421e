import InfoGlobe.Firmware.OtaIntegrity

/-!
The version gate of an update session. Until the header of the image is complete its bytes gather
at the front of the buffer; the gate then compares the version field that lies there with the one
of the last invalid partition, and the session ends with -5 or goes on.
-/

namespace InfoGlobe.OtaRetransmit
open StepSystem FlatMemory

/-- The version field of an image. -/
def imageVersion (p : Platform) (image : List UInt8) : List UInt8 :=
  (image.drop (p.imageHeaderSize + p.segmentHeaderSize + p.versionOffset)).take p.versionSize

/-- The bytes that `recv` delivers in a run. -/
def stream (ls : List Label) : List UInt8 := ls.flatMap Label.received

theorem received_of_run {p : Platform} {s t : State} {ls : List Label}
    (hr : run (step p) s ls = some t) : received t.calls = received s.calls ++ stream ls := by
  induction ls generalizing s with
  | nil =>
      obtain rfl : s = t := Option.some.inj hr
      simp [stream]
  | cons l ls ih =>
      obtain ⟨u, hu, hr⟩ := run_cons_eq_some.mp hr
      rw [ih hr, received_of_step hu, List.append_assoc]
      rfl

/-- The field lies within the header. -/
theorem imageVersion_append {p : Platform} (layout : p.versionOffset + p.versionSize ≤ p.appDescSize)
    {image : List UInt8} (hlen : p.headerSize < image.length) (more : List UInt8) :
    imageVersion p (image ++ more) = imageVersion p image := by
  unfold Platform.headerSize at hlen
  rw [imageVersion, imageVersion, List.drop_append_of_le_length (by omega),
    List.take_append_of_le_length (by simp; omega)]

/-! ### The calls around the gate -/

/-- The places where the session deals with the content of a chunk. -/
def Pc.content : Pc → Bool
  | .checkVersion | .otaBegin | .otaWrite | .showProgress => true
  | _ => false

/-- A call that leaves the buffer and the handle alone. -/
def Label.quiet : Label → Bool
  | .recv (.data _) | .lastInvalid _ | .otaBegin _ _ | .otaWrite _ => false
  | _ => true

/-- The two states know the same of the image. -/
structure SameImage (s t : State) : Prop where
  checked : t.imageHeaderWasChecked = s.imageHeaderWasChecked
  buffer : t.rxBuffer = s.rxBuffer
  dataRead : t.dataRead = s.dataRead
  received : received t.calls = received s.calls
  written : written t.calls = written s.calls
  begun : ∀ ok, .otaBegin ok ∈ t.calls ↔ .otaBegin ok ∈ s.calls

section Frames
variable {p : Platform} {s t : State} {l : Label}

theorem SameImage.log (h : SameImage s t) {c : Call} (hreceived : c.received = [])
    (hwritten : c.written = []) (hbegin : ∀ ok, .otaBegin ok ≠ c) : SameImage s (t.log c) := by
  refine ⟨h.checked, h.buffer, h.dataRead, ?_, ?_, ?_⟩
  · rw [received_log, hreceived, List.append_nil, h.received]
  · rw [written_log, hwritten, List.append_nil, h.written]
  · intro ok
    rw [mem_log, or_iff_left (hbegin ok), h.begun]

theorem SameImage.goto (h : SameImage s t) (pc : Pc) : SameImage s { t with pc := pc } :=
  ⟨h.checked, h.buffer, h.dataRead, h.received, h.written, h.begun⟩

theorem SameImage.freeAndReturn (h : SameImage s t) (code : Int) :
    SameImage s (t.freeAndReturn code) :=
  (h.log (c := .free) rfl rfl (by simp)).goto (.returned code)

theorem sameImage_of_step (h : step p s l = some t) (hl : l.quiet = true) :
    SameImage s t ∧ t.pc.content = false := by
  obtain ⟨_, rfl⟩ := step_eq_some.mp h
  have same : SameImage s s := ⟨rfl, rfl, rfl, rfl, rfl, fun _ => Iff.rfl⟩
  have logged : ∀ c : Call, c.received = [] → c.written = [] → (∀ ok, .otaBegin ok ≠ c) →
      SameImage s (s.log c) := fun c => same.log
  cases l with
  | stateOf pendingVerify =>
      cases pendingVerify with
      | true => exact ⟨(logged .markAppValid rfl rfl (by simp)).goto .getBootPartition, rfl⟩
      | false => exact ⟨same.goto .getBootPartition, rfl⟩
  | bootPartition found =>
      cases found with
      | true => exact ⟨same.goto .getNextUpdatePartition, rfl⟩
      | false => exact ⟨same.freeAndReturn (-1), rfl⟩
  | nextUpdatePartition found startTime printTime =>
      cases found with
      | true => exact ⟨⟨rfl, rfl, rfl, rfl, rfl, fun _ => Iff.rfl⟩, rfl⟩
      | false => exact ⟨same.freeAndReturn (-2), rfl⟩
  | recv r =>
      cases r with
      | data bytes => exact absurd hl (by simp [Label.quiet])
      | closed => exact ⟨(logged (.recv _ _ .closed) rfl rfl (by simp)).goto .otaEnd, rfl⟩
      | error => exact ⟨(logged (.recv _ _ .error) rfl rfl (by simp)).freeAndReturn (-3), rfl⟩
  | lastInvalid _ | otaBegin _ _ | otaWrite _ => exact absurd hl (by simp [Label.quiet])
  | ticks a b c d =>
      simp only [effect, afterTicks]
      split
      · exact ⟨⟨rfl, rfl, rfl, rfl, rfl, fun _ => Iff.rfl⟩, rfl⟩
      · exact ⟨same.goto .sendAck, rfl⟩
  | sendAck => exact ⟨(logged .sendAck rfl rfl (by simp)).goto .recv, rfl⟩
  | otaEnd ok =>
      have hend := logged (.otaEnd ok) rfl rfl (by simp)
      cases ok with
      | true => exact ⟨hend.goto .setBootPartition, rfl⟩
      | false => exact ⟨hend.freeAndReturn (-8), rfl⟩
  | setBootPartition ok =>
      have hboot := logged (.setBootPartition ok) rfl rfl (by simp)
      cases ok with
      | true => exact ⟨hboot.freeAndReturn 0, rfl⟩
      | false => exact ⟨hboot.freeAndReturn (-9), rfl⟩

/-- The gate is passed once, and only the gate returns -5. -/
theorem not_gate_of_step (h : step p s l = some t) (hl : ∀ app, l ≠ .lastInvalid app) :
    t.imageHeaderWasChecked = s.imageHeaderWasChecked ∧ t.pc ≠ .returned (-5) ∧
      (s.imageHeaderWasChecked = true → t.pc ≠ .checkVersion) := by
  obtain ⟨_, rfl⟩ := step_eq_some.mp h
  cases l with
  | stateOf ok => cases ok <;> simp [effect]
  | bootPartition ok | nextUpdatePartition ok | otaBegin ok | otaEnd ok | setBootPartition ok =>
      cases ok <;> simp [effect, State.freeAndReturn]
  | otaWrite ok => cases ok <;> simp [effect, afterWrite, State.freeAndReturn]
  | recv r =>
      cases r with
      | data bytes =>
          simp only [effect, afterRecv]
          refine ⟨rfl, ?_, ?_⟩
          · split
            · simp
            · split <;> simp
          · intro hchecked
            simp [hchecked]
      | closed | error => simp [effect, afterRecv, State.freeAndReturn]
  | lastInvalid app => exact absurd rfl (hl app)
  | ticks a b c d =>
      simp only [effect, afterTicks]
      split <;> simp
  | sendAck => simp [effect]

end Frames

/-! ### Before the gate -/

/-- The header is not complete, or the session stands at the gate. -/
structure Gathering (p : Platform) (s : State) : Prop where
  unchecked : s.imageHeaderWasChecked = false
  nonneg : 0 ≤ s.dataRead
  gathered : received s.calls = readAt s.rxBuffer 0 s.dataRead.toNat
  unwritten : written s.calls = []
  unopened : ∀ ok, .otaBegin ok ∉ s.calls
  place : s.pc.content = true → s.pc = .checkVersion
  header : p.headerSize < (received s.calls).length ↔ s.pc = .checkVersion

section Gathering
variable {p : Platform} {s t : State}

theorem gathering_start (rxBuffer : Nat → UInt8) : Gathering p (start rxBuffer) := by
  constructor <;> simp [start, received, written, Pc.content]

theorem Gathering.length_received (h : Gathering p s) :
    ((received s.calls).length : Int) = s.dataRead := by
  have nonneg := h.nonneg
  rw [h.gathered, length_readAt]
  omega

theorem Gathering.quiet (h : Gathering p s) {l : Label} (hstep : step p s l = some t)
    (hl : l.quiet = true) : Gathering p t := by
  obtain ⟨same, hcontent⟩ := sameImage_of_step hstep hl
  have hpc : s.pc ≠ .checkVersion := by
    intro hpc
    have hlabel := (step_eq_some.mp hstep).1.1
    rw [hpc] at hlabel
    cases l <;> simp [Label.pc, Label.quiet] at hlabel hl
  refine ⟨same.checked ▸ h.unchecked, same.dataRead ▸ h.nonneg, ?_, same.written ▸ h.unwritten,
    fun ok => mt (same.begun ok).mp (h.unopened ok), ?_, ?_⟩
  · rw [same.received, same.buffer, same.dataRead, h.gathered]
  · simp [hcontent]
  · rw [same.received]
    refine iff_of_false (fun hlen => hpc (h.header.mp hlen)) fun hpc' => ?_
    simp [hpc', Pc.content] at hcontent

theorem Gathering.recv (h : Gathering p s) {bytes : List UInt8}
    (hstep : step p s (.recv (.data bytes)) = some t) : Gathering p t := by
  have hreceived := received_of_step hstep
  have hlen := h.length_received
  have nonneg := h.nonneg
  have hpending := pending_recv nonneg (by rw [h.unwritten, h.gathered, List.nil_append]) bytes
  rw [h.unwritten, List.nil_append] at hpending
  obtain ⟨_, rfl⟩ := step_eq_some.mp hstep
  have hpc := recv_data_pc (p := p) (s := s) bytes
  rw [h.unchecked, if_neg Bool.false_ne_true] at hpc
  refine ⟨h.unchecked, ?_, hreceived.trans hpending, ?_, ?_, ?_, ?_⟩
  · exact Int.add_nonneg nonneg (Int.natCast_nonneg _)
  · simp [effect, afterRecv, h.unwritten, Call.written]
  · intro ok
    simp [effect, afterRecv, h.unopened ok]
  · rw [hpc]
    split <;> simp [Pc.content]
  · have hheader : p.headerSize < (received s.calls ++ bytes).length ↔
        (p.headerSize : Int) < s.dataRead + bytes.length := by
      rw [List.length_append]
      omega
    rw [hreceived, Label.received, hheader, hpc]
    split <;> simp_all

/-- The session gathers until it comes to the gate. -/
theorem gathering_of_step (h : Gathering p s) {l : Label} (hstep : step p s l = some t)
    (hl : ∀ app, l ≠ .lastInvalid app) : Gathering p t := by
  have hlabel := (step_eq_some.mp hstep).1.1
  cases l with
  | recv r =>
      cases r with
      | data bytes => exact h.recv hstep
      | closed | error => exact h.quiet hstep rfl
  | lastInvalid app => exact absurd rfl (hl app)
  | otaBegin ok now | otaWrite ok =>
      -- the handle is not touched before the gate
      have hplace := h.place
      simp [hlabel, Label.pc, Pc.content] at hplace
  | stateOf _ | bootPartition _ | nextUpdatePartition _ _ _ | ticks _ _ _ _ | sendAck | otaEnd _
  | setBootPartition _ => exact h.quiet hstep rfl

/-- The gate reads the version field of the image, whatever the chunks were. -/
theorem Gathering.newVersion_eq (h : Gathering p s) (hpc : s.pc = .checkVersion)
    (layout : p.versionOffset + p.versionSize ≤ p.appDescSize) :
    newVersion p s = imageVersion p (received s.calls) := by
  have hheader := h.header.mpr hpc
  rw [h.gathered, length_readAt, Platform.headerSize] at hheader
  rw [newVersion, imageVersion, h.gathered, take_drop_readAt _ _ _ _ _ (by omega), Nat.zero_add]

end Gathering

/-! ### The verdict -/

/-- How far a session has come with the gate, given what the flash tells of the last invalid
partition. -/
inductive Gated (p : Platform) (app : LastInvalid) (s : State) : Prop
  | before (gathering : Gathering p s) (pc : s.pc ≠ .returned (-5))
  | refused (header : p.headerSize < (received s.calls).length)
      (rejects : app.rejects (imageVersion p (received s.calls)) = true)
      (pc : s.pc = .returned (-5)) (unopened : ∀ ok, .otaBegin ok ∉ s.calls)
  | passed (header : p.headerSize < (received s.calls).length)
      (accepts : app.rejects (imageVersion p (received s.calls)) = false)
      (checked : s.imageHeaderWasChecked = true)
      (pc : s.pc ≠ .checkVersion ∧ s.pc ≠ .returned (-5))

section Verdict
variable {p : Platform} {app : LastInvalid} {s t : State}

theorem Gathering.lastInvalid (h : Gathering p s)
    (layout : p.versionOffset + p.versionSize ≤ p.appDescSize)
    (hstep : step p s (.lastInvalid app) = some t) : Gated p app t := by
  obtain ⟨⟨hpc, _⟩, rfl⟩ := step_eq_some.mp hstep
  have hheader := h.header.mpr hpc
  have hversion := h.newVersion_eq hpc layout
  have hreceived : received (effect p s (.lastInvalid app)).calls = received s.calls :=
    (received_of_step hstep).trans (List.append_nil _)
  cases hrejects : app.rejects (imageVersion p (received s.calls)) with
  | true =>
      have hreturn : effect p s (.lastInvalid app) = s.freeAndReturn (-5) := by
        simp [effect, hversion, hrejects]
      rw [hreturn] at hreceived ⊢
      refine .refused (hreceived ▸ hheader) (hreceived ▸ hrejects) rfl fun ok => ?_
      simp [State.freeAndReturn, h.unopened ok]
  | false =>
      have hpass : effect p s (.lastInvalid app) =
          { s with pc := .otaBegin, imageHeaderWasChecked := true } := by
        simp [effect, hversion, hrejects]
      rw [hpass] at hreceived ⊢
      exact .passed hheader hrejects rfl (by simp)

theorem gated_step (layout : p.versionOffset + p.versionSize ≤ p.appDescSize) {l : Label}
    (hflash : ∀ a, l = .lastInvalid a → a = app) (h : Gated p app s)
    (hstep : step p s l = some t) : Gated p app t := by
  cases h with
  | before h hpc =>
      by_cases hl : ∃ a, l = .lastInvalid a
      · obtain ⟨a, rfl⟩ := hl
        obtain rfl := hflash a rfl
        exact h.lastInvalid layout hstep
      · have hne : ∀ a, l ≠ .lastInvalid a := fun a ha => hl ⟨a, ha⟩
        exact .before (gathering_of_step h hstep hne) (not_gate_of_step hstep hne).2.1
  | refused _ _ hpc _ => exact absurd hpc (not_returned_of_step hstep (-5))
  | passed hheader haccepts hchecked hpc =>
      have hl : ∀ a, l ≠ .lastInvalid a := by
        rintro a rfl
        exact hpc.1 (step_eq_some.mp hstep).1.1
      obtain ⟨hkept, hcode, hgate⟩ := not_gate_of_step hstep hl
      have hreceived := received_of_step hstep
      refine .passed ?_ ?_ (hkept.trans hchecked) ⟨hgate hchecked, hcode⟩
      · rw [hreceived, List.length_append]
        omega
      · rw [hreceived, imageVersion_append layout hheader, haccepts]

theorem gated_of_run (layout : p.versionOffset + p.versionSize ≤ p.appDescSize) {ls : List Label}
    (hflash : ∀ a, .lastInvalid a ∈ ls → a = app) (h : Gated p app s)
    (hr : run (step p) s ls = some t) : Gated p app t := by
  induction ls generalizing s with
  | nil =>
      obtain rfl : s = t := Option.some.inj hr
      exact h
  | cons l ls ih =>
      obtain ⟨u, hu, hr⟩ := run_cons_eq_some.mp hr
      have hu' := gated_step layout (fun a ha => hflash a (ha ▸ List.mem_cons_self)) h hu
      exact ih (fun a ha => hflash a (List.mem_cons_of_mem l ha)) hu' hr

/-- A session that received more than a header refuses it for the version in the description of
the last invalid partition or, where that cannot be read, for what lies on the stack. -/
theorem returned_refused_iff (h : Gated p app t) (hret : ∃ code, t.pc = .returned code)
    (hlen : p.headerSize < (received t.calls).length) :
    (t.pc = .returned (-5) ↔ app.rejects (imageVersion p (received t.calls)) = true) ∧
      (t.pc = .returned (-5) → ∀ ok, .otaBegin ok ∉ t.calls) := by
  cases h with
  | before h _ =>
      obtain ⟨code, hcode⟩ := hret
      exact absurd (hcode.symm.trans (h.header.mp hlen)) (by simp)
  | refused _ hrejects hpc hunopened => exact ⟨iff_of_true hpc hrejects, fun _ => hunopened⟩
  | passed _ haccepts _ hpc =>
      exact ⟨iff_of_false hpc.2 (by simp [haccepts]), fun hreturned => absurd hreturned hpc.2⟩

/-- The session refuses an image, before it opens the handle, if and only if there is a last
invalid partition with a description that can be read and has the version of the image. -/
def GateHolds (p : Platform) (app : LastInvalid) (image : List UInt8) (t : State) : Prop :=
  (t.pc = .returned (-5) ↔
      app.present = true ∧ app.description = some (imageVersion p image)) ∧
    (t.pc = .returned (-5) → ∀ ok, .otaBegin ok ∉ t.calls)

/-- The gate looks at the stack where the description cannot be read. -/
theorem version_gate_iff (layout : p.versionOffset + p.versionSize ≤ p.appDescSize)
    (rxBuffer : Nat → UInt8) {ls : List Label} (hr : run (step p) (start rxBuffer) ls = some t)
    (hret : ∃ code, t.pc = .returned code) (hlen : p.headerSize < (stream ls).length)
    (hflash : ∀ a, .lastInvalid a ∈ ls → a = app) :
    GateHolds p app (stream ls) t ↔
      ¬(app.present = true ∧ app.description = none ∧ app.stack = imageVersion p (stream ls)) := by
  have hreceived : received t.calls = stream ls := received_of_run hr
  have hgated : Gated p app t :=
    gated_of_run layout hflash (.before (gathering_start rxBuffer) (by simp [start])) hr
  rw [← hreceived] at hlen ⊢
  obtain ⟨hcode, hopen⟩ := returned_refused_iff hgated hret hlen
  rw [GateHolds, and_iff_left hopen, hcode, LastInvalid.rejects, LastInvalid.version]
  cases hpresent : app.present with
  | false => simp
  | true => cases hdescription : app.description <;> simp

end Verdict

/-- An image of 289 bytes in two chunks, with '1' in every place of its version. -/
def refusedSession (app : LastInvalid) : List Label :=
  [.stateOf false, .bootPartition true, .nextUpdatePartition true 0 0,
    .recv (.data (List.replicate 100 0x31)), .sendAck,
    .recv (.data (List.replicate 189 0x31)), .lastInvalid app]

def ones : List UInt8 := List.replicate 32 0x31
def zeros : List UInt8 := List.replicate 32 0

theorem version_gate_refuses :
    ∃ t, run (step espIdf) (start fun _ => 0) (refusedSession ⟨true, some ones, zeros⟩) = some t ∧
      t.pc = .returned (-5) ∧
      GateHolds espIdf ⟨true, some ones, zeros⟩
        (stream (refusedSession ⟨true, some ones, zeros⟩)) t := by
  have hrun : (run (step espIdf) (start fun _ => 0)
      (refusedSession ⟨true, some ones, zeros⟩)).map State.pc = some (.returned (-5)) := by
    decide +kernel
  obtain ⟨t, ht, hpc⟩ := Option.map_eq_some_iff.mp hrun
  exact ⟨t, ht, hpc, (version_gate_iff (by decide) (fun _ => 0) ht ⟨-5, hpc⟩ (by decide +kernel)
    (by simp [refusedSession])).mpr (by simp)⟩

/-- The description cannot be read, and the stack holds the version of the image by chance. -/
theorem version_gate_reads_stack :
    ∃ t, run (step espIdf) (start fun _ => 0) (refusedSession ⟨true, none, ones⟩) = some t ∧
      ¬GateHolds espIdf ⟨true, none, ones⟩ (stream (refusedSession ⟨true, none, ones⟩)) t := by
  have hrun : (run (step espIdf) (start fun _ => 0)
      (refusedSession ⟨true, none, ones⟩)).map State.pc = some (.returned (-5)) := by
    decide +kernel
  obtain ⟨t, ht, hpc⟩ := Option.map_eq_some_iff.mp hrun
  refine ⟨t, ht, fun hgate => ?_⟩
  have hdescription := (hgate.1.mp hpc).2
  exact absurd hdescription (by simp)

end InfoGlobe.OtaRetransmit
