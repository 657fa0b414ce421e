import InfoGlobe.Firmware.OtaVersionGate

/-!
Completeness of an update whose flash calls all succeed. The chunk that completes the header is
written by the chunk behind it. Where none comes, because the image ends there or because the
buffer is full and `recv` has no room to fill, the session ends without a single write.
-/

namespace InfoGlobe.OtaRetransmit
open StepSystem FlatMemory CallLog

/-- The stream is the image and ends with it, `recv` returns 0 when the buffer is full, the gate
lets the image pass, and the flash calls succeed: `esp_ota_end` does so at least on a handle that
was written to. -/
def Uploads (p : Platform) (image : List UInt8) (s : State) : Label → Prop
  | .recv (.data bytes) => received s.calls ++ bytes <+: image
  | .recv .closed => received s.calls = image ∨ s.dataRead = buffSize
  | .recv .error => False
  | .bootPartition found | .nextUpdatePartition found _ _ => found = true
  | .lastInvalid app => app.rejects (newVersion p s) = false
  | .otaBegin ok _ | .otaWrite ok | .setBootPartition ok => ok = true
  | .otaEnd ok => written s.calls ≠ [] → ok = true
  | .stateOf _ | .ticks _ _ _ _ | .sendAck => True

instance (p : Platform) (image : List UInt8) (s : State) : DecidablePred (Uploads p image s)
  | .recv (.data bytes) => inferInstanceAs (Decidable (received s.calls ++ bytes <+: image))
  | .recv .closed => inferInstanceAs (Decidable (received s.calls = image ∨ s.dataRead = buffSize))
  | .recv .error => .isFalse not_false
  | .bootPartition found | .nextUpdatePartition found _ _ =>
      inferInstanceAs (Decidable (found = true))
  | .lastInvalid app => inferInstanceAs (Decidable (app.rejects (newVersion p s) = false))
  | .otaBegin ok _ | .otaWrite ok | .setBootPartition ok => inferInstanceAs (Decidable (ok = true))
  | .otaEnd ok => inferInstanceAs (Decidable (written s.calls ≠ [] → ok = true))
  | .stateOf _ | .ticks _ _ _ _ | .sendAck => .isTrue trivial

/-- Everything has been written when `esp_ota_end` is called. -/
def Passed (image : List UInt8) (past : List Call) (c : Call) : Prop :=
  ∀ ok, c = .otaEnd ok → written past = image

def Complete (image : List UInt8) (t : State) : Prop :=
  written t.calls = image ∧ EachEntry (Passed image) t.calls

/-! ### The chunk that completes the header -/

def Label.chunk : Label → List (List UInt8)
  | .recv (.data bytes) => [bytes]
  | _ => []

def chunks (ls : List Label) : List (List UInt8) := ls.flatMap Label.chunk

/-- How much has come in with the chunk that completes the header. -/
def completedAt (headerSize : Nat) : Nat → List (List UInt8) → Option Nat
  | _, [] => none
  | n, chunk :: rest =>
      if headerSize < n + chunk.length then some (n + chunk.length)
      else completedAt headerSize (n + chunk.length) rest

/-- More of the image is to come when its header is complete, and the buffer has room for it. -/
def HeaderFits (p : Platform) (image : List UInt8) (chunks : List (List UInt8)) : Prop :=
  ∃ n ∈ completedAt p.headerSize 0 chunks, n < buffSize ∧ n < image.length

theorem completedAt_append (headerSize n : Nat) (cs ds : List (List UInt8)) :
    completedAt headerSize n (cs ++ ds) =
      (completedAt headerSize n cs).or (completedAt headerSize (n + cs.flatten.length) ds) := by
  induction cs generalizing n with
  | nil => simp [completedAt]
  | cons c cs ih =>
      simp only [List.cons_append, completedAt]
      split
      · rfl
      · rw [ih, List.flatten_cons, List.length_append, Nat.add_assoc]

theorem completedAt_concat_of_some {headerSize m : Nat} {past : List (List UInt8)}
    (h : completedAt headerSize 0 past = some m) (ds : List (List UInt8)) :
    completedAt headerSize 0 (past ++ ds) = some m := by
  rw [completedAt_append, h, Option.some_or]

theorem completedAt_concat_of_none {headerSize : Nat} {past : List (List UInt8)}
    (h : completedAt headerSize 0 past = none) (bytes : List UInt8) :
    completedAt headerSize 0 (past ++ [bytes]) =
      if headerSize < (past.flatten ++ bytes).length then some (past.flatten ++ bytes).length
      else none := by
  rw [completedAt_append, h, Option.none_or, Nat.zero_add, List.length_append]
  rfl

/-! ### The end of the loop -/

/-- The session has left the loop. -/
def Pc.over : Pc → Bool
  | .otaEnd | .setBootPartition | .returned _ => true
  | _ => false

section Ending
variable {p : Platform} {image : List UInt8} {s t : State} {l : Label}

theorem over_of_step (h : step p s l = some t) (hs : s.pc.over = true) :
    l.quiet = true ∧ t.pc.over = true := by
  obtain ⟨⟨hpc, _⟩, rfl⟩ := step_eq_some.mp h
  rw [hpc] at hs
  cases l with
  | otaEnd ok | setBootPartition ok => cases ok <;> exact ⟨rfl, rfl⟩
  | stateOf _ | bootPartition _ | nextUpdatePartition _ _ _ | recv _ | lastInvalid _ | otaBegin _ _
  | otaWrite _ | ticks _ _ _ _ | sendAck => simp [Label.pc, Pc.over] at hs

/-- The loop is left when `recv` returns 0, and not before. -/
theorem over_iff_of_uploads (h : step p s l = some t) (hu : Uploads p image s l)
    (hs : s.pc.over = false) : t.pc.over = true ↔ l = .recv .closed := by
  obtain ⟨⟨hpc, _⟩, rfl⟩ := step_eq_some.mp h
  cases l with
  | stateOf ok => cases ok <;> simp [effect, Pc.over]
  | bootPartition ok | nextUpdatePartition ok | otaBegin ok | otaWrite ok =>
      obtain rfl : ok = true := hu
      simp [effect, afterWrite, Pc.over]
  | recv r =>
      cases r with
      | data bytes =>
          rw [recv_data_pc]
          refine iff_of_false ?_ (by simp)
          split
          · simp [Pc.over]
          · split <;> simp [Pc.over]
      | closed => simp [effect, afterRecv, Pc.over]
      | error => exact hu.elim
  | lastInvalid app =>
      have haccepts : app.rejects (newVersion p s) = false := hu
      simp [effect, haccepts, Pc.over]
  | ticks a b c d =>
      simp only [effect, afterTicks]
      split <;> simp [Pc.over]
  | sendAck => simp [effect, Pc.over]
  | otaEnd ok | setBootPartition ok => simp [hpc, Label.pc, Pc.over] at hs

end Ending

/-! ### Behind the gate -/

/-- The handle has been asked for, and nothing has been written: the next chunk would do it. -/
structure Waiting (p : Platform) (image : List UInt8) (past : List (List UInt8)) (s : State) :
    Prop where
  checked : s.imageHeaderWasChecked = true
  nonneg : 0 ≤ s.dataRead
  gathered : received s.calls = readAt s.rxBuffer 0 s.dataRead.toNat
  unwritten : written s.calls = []
  place : s.pc ≠ .checkVersion ∧ s.pc ≠ .otaWrite
  header : completedAt p.headerSize 0 past = some (received s.calls).length
  closed : s.pc.over = true →
    (received s.calls).length = image.length ∨ (received s.calls).length = buffSize

/-- Every chunk is written as soon as it has come in. -/
structure Flowing (p : Platform) (image : List UInt8) (past : List (List UInt8)) (s : State) :
    Prop where
  checked : s.imageHeaderWasChecked = true
  nonneg : 0 ≤ s.dataRead
  pending : received s.calls = written s.calls ++ readAt s.rxBuffer 0 s.dataRead.toNat
  flushed : s.pc ≠ .otaWrite → s.dataRead = 0
  place : s.pc ≠ .checkVersion ∧ s.pc ≠ .otaBegin
  header : ∃ n ∈ completedAt p.headerSize 0 past, n < buffSize ∧ n < (received s.calls).length
  closed : s.pc.over = true → received s.calls = image
  code : ∀ code, s.pc = .returned code → code = 0

section Phases
variable {p : Platform} {image : List UInt8} {past : List (List UInt8)} {s t : State} {l : Label}

theorem place_of_content (h : t.pc.content = false) :
    t.pc ≠ .checkVersion ∧ t.pc ≠ .otaBegin ∧ t.pc ≠ .otaWrite := by
  refine ⟨?_, ?_, ?_⟩ <;> rintro hpc <;> simp [hpc, Pc.content] at h

theorem Waiting.length_received (h : Waiting p image past s) :
    ((received s.calls).length : Int) = s.dataRead := by
  have nonneg := h.nonneg
  rw [h.gathered, length_readAt]
  omega

/-- The gate lets the image pass. -/
theorem Gathering.waiting (h : Gathering p s) {app : LastInvalid}
    (header : completedAt p.headerSize 0 past = some (received s.calls).length)
    (haccepts : app.rejects (newVersion p s) = false)
    (hstep : step p s (.lastInvalid app) = some t) : Waiting p image past t := by
  obtain ⟨_, rfl⟩ := step_eq_some.mp hstep
  have hpass : effect p s (.lastInvalid app) =
      { s with pc := .otaBegin, imageHeaderWasChecked := true } := by
    simp [effect, haccepts]
  rw [hpass]
  exact ⟨rfl, h.nonneg, h.gathered, h.unwritten, by simp, header, by simp [Pc.over]⟩

theorem Waiting.quiet (h : Waiting p image past s) (hu : Uploads p image s l)
    (hstep : step p s l = some t) (hl : l.quiet = true) : Waiting p image past t := by
  obtain ⟨same, hcontent⟩ := sameImage_of_step hstep hl
  obtain ⟨hcheck, _, hwrite⟩ := place_of_content hcontent
  refine ⟨same.checked.trans h.checked, same.dataRead ▸ h.nonneg, ?_, same.written ▸ h.unwritten,
    ⟨hcheck, hwrite⟩, same.received ▸ h.header, ?_⟩
  · rw [same.received, same.buffer, same.dataRead, h.gathered]
  · intro hover
    rw [same.received]
    cases hs : s.pc.over with
    | true => exact h.closed hs
    | false =>
        obtain rfl := (over_iff_of_uploads hstep hu hs).mp hover
        have hlen := h.length_received
        rcases hu with himage | hfull
        · exact .inl (congrArg List.length himage)
        · exact .inr (by omega)

theorem Waiting.otaBegin (h : Waiting p image past s) {now : UInt32}
    (hstep : step p s (.otaBegin true now) = some t) : Waiting p image past t := by
  have hreceived : received t.calls = received s.calls :=
    (received_of_step hstep).trans (List.append_nil _)
  obtain ⟨_, rfl⟩ := step_eq_some.mp hstep
  refine ⟨h.checked, h.nonneg, hreceived.trans h.gathered, ?_, by simp [effect], ?_, ?_⟩
  · simp [effect, h.unwritten, Call.written]
  · rw [hreceived, h.header]
  · simp [effect, Pc.over]

/-- A chunk behind the gate: it lies in the buffer until the write that follows. -/
theorem flowing_of_recv (checked : s.imageHeaderWasChecked = true) (nonneg : 0 ≤ s.dataRead)
    (pending : received s.calls = written s.calls ++ readAt s.rxBuffer 0 s.dataRead.toNat)
    {bytes : List UInt8} {n : Nat} (hn : completedAt p.headerSize 0 past = some n)
    (hfull : n < buffSize) (hlen : n < (received s.calls ++ bytes).length)
    (hstep : step p s (.recv (.data bytes)) = some t) : Flowing p image (past ++ [bytes]) t := by
  have hreceived : received t.calls = received s.calls ++ bytes := received_of_step hstep
  have hpending := pending_recv nonneg pending bytes
  obtain ⟨_, rfl⟩ := step_eq_some.mp hstep
  have hpc := recv_data_pc (p := p) (s := s) bytes
  rw [checked, if_pos rfl] at hpc
  refine ⟨checked, Int.add_nonneg nonneg (Int.natCast_nonneg _), ?_, ?_, ?_, ?_, ?_, ?_⟩
  · rw [hreceived, hpending]
    simp [effect, afterRecv, Call.written]
  · exact fun hne => absurd hpc hne
  · simp [hpc]
  · exact ⟨n, completedAt_concat_of_some hn [bytes], hfull, hreceived ▸ hlen⟩
  · simp [hpc, Pc.over]
  · simp [hpc]

/-- A chunk that follows the one with the end of the header. -/
theorem Waiting.recv (h : Waiting p image past s) {bytes : List UInt8}
    (hstep : step p s (.recv (.data bytes)) = some t) : Flowing p image (past ++ [bytes]) t := by
  have hpending : received s.calls = written s.calls ++ readAt s.rxBuffer 0 s.dataRead.toNat := by
    rw [h.unwritten, h.gathered, List.nil_append]
  have hlen := h.length_received
  obtain ⟨hpos, hroom⟩ := RecvResult.within_data.mp (step_eq_some.mp hstep).1.2
  refine flowing_of_recv h.checked h.nonneg hpending h.header ?_ ?_ hstep
  · omega
  · rw [List.length_append]
    omega

theorem Flowing.recv (h : Flowing p image past s) {bytes : List UInt8}
    (hstep : step p s (.recv (.data bytes)) = some t) : Flowing p image (past ++ [bytes]) t := by
  obtain ⟨n, hn, hfull, hlen⟩ := h.header
  refine flowing_of_recv h.checked h.nonneg h.pending hn hfull ?_ hstep
  rw [List.length_append]
  omega

theorem Flowing.otaWrite (h : Flowing p image past s)
    (hstep : step p s (.otaWrite true) = some t) : Flowing p image past t := by
  have hreceived : received t.calls = received s.calls :=
    (received_of_step hstep).trans (List.append_nil _)
  obtain ⟨_, rfl⟩ := step_eq_some.mp hstep
  refine ⟨h.checked, Int.le_refl 0, ?_, fun _ => rfl, by simp [effect, afterWrite],
    hreceived ▸ h.header, by simp [effect, afterWrite, Pc.over], by simp [effect, afterWrite]⟩
  rw [hreceived, h.pending]
  simp [effect, afterWrite, Call.written]

theorem Flowing.written_of_over (h : Flowing p image past s) (hover : s.pc.over = true) :
    written s.calls = image := by
  have hread : s.dataRead = 0 := by
    apply h.flushed
    intro hpc
    simp [hpc, Pc.over] at hover
  have hpending := h.pending
  rw [hread, h.closed hover] at hpending
  simpa using hpending.symm

theorem not_fails_of_uploads (hu : Uploads p image s l)
    (hend : ∀ ok, l = .otaEnd ok → written s.calls ≠ []) : ¬Fails p s l := by
  intro hf
  cases l with
  | bootPartition ok | nextUpdatePartition ok | otaBegin ok | otaWrite ok | setBootPartition ok =>
      exact absurd (hu.symm.trans hf) (by simp)
  | otaEnd ok => exact absurd ((hu (hend ok rfl)).symm.trans hf) (by simp)
  | lastInvalid app => exact absurd (hu.symm.trans hf) (by simp)
  | recv r =>
      obtain rfl : r = .error := hf
      exact hu.elim
  | stateOf _ | ticks _ _ _ _ | sendAck => exact hf.elim

theorem Flowing.quiet (h : Flowing p image past s) (himage : image ≠ [])
    (hu : Uploads p image s l) (hstep : step p s l = some t) (hl : l.quiet = true) :
    Flowing p image past t := by
  obtain ⟨same, hcontent⟩ := sameImage_of_step hstep hl
  obtain ⟨hcheck, hbegin, _⟩ := place_of_content hcontent
  have hlabel := (step_eq_some.mp hstep).1.1
  have hread : s.dataRead = 0 := by
    apply h.flushed
    intro hpc
    rw [hpc] at hlabel
    cases l <;> simp [Label.pc, Label.quiet] at hlabel hl
  refine ⟨same.checked.trans h.checked, same.dataRead ▸ h.nonneg, ?_,
    fun _ => same.dataRead.trans hread, ⟨hcheck, hbegin⟩, same.received ▸ h.header, ?_, ?_⟩
  · rw [same.received, same.written, same.buffer, same.dataRead, h.pending]
  · intro hover
    rw [same.received]
    cases hs : s.pc.over with
    | true => exact h.closed hs
    | false =>
        obtain rfl := (over_iff_of_uploads hstep hu hs).mp hover
        exact hu.resolve_right (by simp [hread, buffSize])
  · refine (returned_of_step hstep).2 (not_fails_of_uploads hu ?_)
    rintro ok rfl hwritten
    have hover : s.pc.over = true := by simp [hlabel, Label.pc, Pc.over]
    exact himage ((h.written_of_over hover).symm.trans hwritten)

end Phases

/-! ### Whole uploads -/

/-- How far an upload has come. -/
inductive Phase (p : Platform) (image : List UInt8) (past : List (List UInt8)) (s : State) : Prop
  | gathering (gathering : Gathering p s) (header : completedAt p.headerSize 0 past =
      if p.headerSize < (received s.calls).length then some (received s.calls).length else none)
  | waiting (waiting : Waiting p image past s)
  | flowing (flowing : Flowing p image past s)

structure Uploading (p : Platform) (image : List UInt8) (past : List (List UInt8)) (s : State) :
    Prop where
  arrived : past.flatten = received s.calls
  phase : Phase p image past s
  passed : s.pc.over = false ∨ written s.calls = image → EachEntry (Passed image) s.calls

section Uploads
variable {p : Platform} {image : List UInt8} {past : List (List UInt8)} {s t : State} {l : Label}

theorem uploading_start (rxBuffer : Nat → UInt8) : Uploading p image [] (start rxBuffer) := by
  refine ⟨rfl, .gathering (gathering_start rxBuffer) ?_, fun _ => eachEntry_nil⟩
  simp [completedAt, start, received]

theorem arrived_of_step (h : past.flatten = received s.calls) (hstep : step p s l = some t) :
    (past ++ l.chunk).flatten = received t.calls := by
  rw [received_of_step hstep, List.flatten_append, h]
  cases l with
  | recv r => cases r <;> simp [Label.chunk, Label.received]
  | _ => rfl

/-- A call that brings nothing and writes nothing. -/
theorem Phase.quiet (h : Phase p image past s) (himage : image ≠ []) (hu : Uploads p image s l)
    (hstep : step p s l = some t) (hl : l.quiet = true) : Phase p image past t := by
  cases h with
  | gathering h header =>
      refine .gathering (h.quiet hstep hl) ?_
      rw [(sameImage_of_step hstep hl).1.received, header]
  | waiting h => exact .waiting (h.quiet hu hstep hl)
  | flowing h => exact .flowing (h.quiet himage hu hstep hl)

theorem Phase.recv (h : Phase p image past s) (arrived : past.flatten = received s.calls)
    {bytes : List UInt8} (hstep : step p s (.recv (.data bytes)) = some t) :
    Phase p image (past ++ [bytes]) t := by
  cases h with
  | gathering h header =>
      have hlabel := (step_eq_some.mp hstep).1.1
      have hopen : ¬p.headerSize < (received s.calls).length := by
        rw [h.header, hlabel]
        simp [Label.pc]
      rw [if_neg hopen] at header
      have hsum : past.flatten ++ bytes = received t.calls := by
        rw [received_of_step hstep, arrived]
        rfl
      refine .gathering (h.recv hstep) ?_
      rw [completedAt_concat_of_none header, hsum]
  | waiting h => exact .flowing (h.recv hstep)
  | flowing h => exact .flowing (h.recv hstep)

/-- The gate is met once. -/
theorem Phase.lastInvalid (h : Phase p image past s) {app : LastInvalid}
    (haccepts : app.rejects (newVersion p s) = false)
    (hstep : step p s (.lastInvalid app) = some t) : Phase p image past t := by
  have hlabel := (step_eq_some.mp hstep).1.1
  cases h with
  | gathering h header =>
      rw [if_pos (h.header.mpr hlabel)] at header
      exact .waiting (h.waiting header haccepts hstep)
  | waiting h => exact absurd hlabel h.place.1
  | flowing h => exact absurd hlabel h.place.1

theorem Phase.otaBegin (h : Phase p image past s) {now : UInt32}
    (hstep : step p s (.otaBegin true now) = some t) : Phase p image past t := by
  have hlabel := (step_eq_some.mp hstep).1.1
  cases h with
  | gathering h _ =>
      have hplace := h.place
      simp [hlabel, Label.pc, Pc.content] at hplace
  | waiting h => exact .waiting (h.otaBegin hstep)
  | flowing h => exact absurd hlabel h.place.2

theorem Phase.otaWrite (h : Phase p image past s) (hstep : step p s (.otaWrite true) = some t) :
    Phase p image past t := by
  have hlabel := (step_eq_some.mp hstep).1.1
  cases h with
  | gathering h _ =>
      have hplace := h.place
      simp [hlabel, Label.pc, Pc.content] at hplace
  | waiting h => exact absurd hlabel h.place.2
  | flowing h => exact .flowing (h.otaWrite hstep)

theorem phase_of_step (h : Phase p image past s) (himage : image ≠ [])
    (arrived : past.flatten = received s.calls) (hu : Uploads p image s l)
    (hstep : step p s l = some t) : Phase p image (past ++ l.chunk) t := by
  -- a chunk comes in with `recv` alone
  have unchanged : l.chunk = [] → Phase p image past t → Phase p image (past ++ l.chunk) t := by
    intro hchunk ht
    rwa [hchunk, List.append_nil]
  cases l with
  | recv r =>
      cases r with
      | data bytes => exact h.recv arrived hstep
      | closed | error => exact unchanged rfl (h.quiet himage hu hstep rfl)
  | lastInvalid app => exact unchanged rfl (h.lastInvalid hu hstep)
  | otaBegin ok now =>
      obtain rfl : ok = true := hu
      exact unchanged rfl (h.otaBegin hstep)
  | otaWrite ok =>
      obtain rfl : ok = true := hu
      exact unchanged rfl (h.otaWrite hstep)
  | stateOf _ | bootPartition _ | nextUpdatePartition _ _ _ | ticks _ _ _ _ | sendAck | otaEnd _
  | setBootPartition _ => exact unchanged rfl (h.quiet himage hu hstep rfl)

theorem eq_otaEnd_of_mem {ok : Bool} (h : .otaEnd ok ∈ l.calls p s) : l = .otaEnd ok := by
  cases l with
  | otaEnd b => cases b <;> simpa [Label.calls, eq_comm] using h
  | stateOf b | bootPartition b | nextUpdatePartition b | otaBegin b | otaWrite b
  | setBootPartition b => cases b <;> simp [Label.calls] at h
  | recv r => cases r <;> simp [Label.calls] at h
  | lastInvalid app =>
      simp only [Label.calls] at h
      split at h <;> simp at h
  | ticks _ _ _ _ | sendAck => simp [Label.calls] at h

/-- No other call than `esp_ota_end` has to wait for the bytes, and it is the first of its step. -/
theorem passed_calls (h : EachEntry (Passed image) s.calls)
    (hend : ∀ ok, l = .otaEnd ok → written s.calls = image) :
    EachEntry (Passed image) (s.calls ++ l.calls p s) := by
  refine h.append fun past c later heq ok hc => ?_
  subst hc
  obtain rfl : l = .otaEnd ok :=
    eq_otaEnd_of_mem (heq ▸ List.mem_append_right past List.mem_cons_self)
  have hfirst : past = [] := by
    cases past with
    | nil => rfl
    | cons d past =>
        have hmem : .otaEnd ok ∈ (if ok then [] else [Call.free]) :=
          (List.cons.inj heq).2 ▸ List.mem_append_right past List.mem_cons_self
        cases ok <;> simp at hmem
  rw [hfirst, List.append_nil, hend ok rfl]

theorem passed_of_step (h : s.pc.over = false ∨ written s.calls = image →
      EachEntry (Passed image) s.calls) (hstep : step p s l = some t)
    (ht : t.pc.over = false ∨ written t.calls = image) : EachEntry (Passed image) t.calls := by
  have hback : s.pc.over = true → written s.calls = image := by
    intro hover
    obtain ⟨hquiet, hover'⟩ := over_of_step hstep hover
    rw [← (sameImage_of_step hstep hquiet).1.written]
    exact ht.resolve_left (by simp [hover'])
  have hentries : EachEntry (Passed image) s.calls := by
    cases hover : s.pc.over with
    | true => exact h (.inr (hback hover))
    | false => exact h (.inl hover)
  rw [calls_of_step hstep]
  apply passed_calls hentries
  rintro ok rfl
  exact hback (by simp [(step_eq_some.mp hstep).1.1, Label.pc, Pc.over])

theorem uploading_step (himage : image ≠ []) (h : Uploading p image past s)
    (hu : Uploads p image s l) (hstep : step p s l = some t) :
    Uploading p image (past ++ l.chunk) t := by
  exact ⟨arrived_of_step h.arrived hstep, phase_of_step h.phase himage h.arrived hu hstep,
    passed_of_step h.passed hstep⟩

theorem uploading_of_run (himage : image ≠ []) {ls : List Label} (h : Uploading p image past s)
    (hu : EachStep (step p) (Uploads p image) s ls) (hr : run (step p) s ls = some t) :
    Uploading p image (past ++ chunks ls) t := by
  induction ls generalizing s past with
  | nil =>
      obtain rfl : s = t := Option.some.inj hr
      simpa [chunks] using h
  | cons l ls ih =>
      obtain ⟨u, hstep, hr⟩ := run_cons_eq_some.mp hr
      obtain ⟨hl, hu⟩ := hu u hstep
      have hrest := ih (uploading_step himage h hl hstep) hu hr
      rwa [List.append_assoc] at hrest

theorem ne_nil_of_headerSize (hlen : p.headerSize < image.length) : image ≠ [] :=
  List.ne_nil_of_length_pos (Nat.zero_lt_of_lt hlen)

/-- The verdict on an upload that has come to its end. -/
theorem complete_iff_headerFits (hlen : p.headerSize < image.length)
    (h : Uploading p image past t) {code : Int} (hret : t.pc = .returned code) :
    (Complete image t ↔ HeaderFits p image past) ∧ (Complete image t → code = 0) := by
  have hover : t.pc.over = true := by simp [hret, Pc.over]
  have hempty : image ≠ [] := ne_nil_of_headerSize hlen
  cases h.phase with
  | gathering hgathering header =>
      have hbad : ¬Complete image t := fun hc => hempty (hc.1.symm.trans hgathering.unwritten)
      have hopen : ¬p.headerSize < (received t.calls).length := by
        rw [hgathering.header, hret]
        simp
      rw [if_neg hopen] at header
      exact ⟨iff_of_false hbad (by simp [HeaderFits, header]), fun hc => absurd hc hbad⟩
  | waiting hwaiting =>
      have hbad : ¬Complete image t := fun hc => hempty (hc.1.symm.trans hwaiting.unwritten)
      refine ⟨iff_of_false hbad ?_, fun hc => absurd hc hbad⟩
      rintro ⟨n, hn, hfull, hmore⟩
      obtain rfl := Option.some.inj (hwaiting.header.symm.trans hn)
      have hclosed := hwaiting.closed hover
      omega
  | flowing hflowing =>
      have hwritten := hflowing.written_of_over hover
      have hfits := hflowing.header
      rw [hflowing.closed hover] at hfits
      exact ⟨iff_of_true ⟨hwritten, h.passed (.inr hwritten)⟩ hfits,
        fun _ => hflowing.code code hret⟩

/-- How many calls there are before the next `recv`, or after the last one. -/
def Pc.rank : Pc → Nat
  | .returned _ => 0
  | .setBootPartition => 1
  | .otaEnd => 2
  | .recv => 3
  | .sendAck | .getNextUpdatePartition => 4
  | .otaBegin | .showProgress | .getBootPartition => 5
  | .checkVersion | .otaWrite | .getState => 6

theorem rank_of_step (hstep : step p s l = some t) (hl : ∀ bytes, l ≠ .recv (.data bytes)) :
    t.pc.rank < s.pc.rank := by
  obtain ⟨⟨hlabel, _⟩, rfl⟩ := step_eq_some.mp hstep
  rw [hlabel]
  cases l with
  | stateOf ok | bootPartition ok | nextUpdatePartition ok | otaBegin ok | otaWrite ok | otaEnd ok
  | setBootPartition ok =>
      cases ok <;> simp [effect, afterWrite, State.freeAndReturn, Label.pc, Pc.rank]
  | recv r =>
      cases r with
      | data bytes => exact absurd rfl (hl bytes)
      | closed | error => simp [effect, afterRecv, State.freeAndReturn, Label.pc, Pc.rank]
  | lastInvalid app =>
      simp only [effect]
      split <;> simp [State.freeAndReturn, Label.pc, Pc.rank]
  | ticks a b c d =>
      simp only [effect, afterTicks]
      split <;> simp [Label.pc, Pc.rank]
  | sendAck => simp [effect, Label.pc, Pc.rank]

/-- What is still to come of the image, and the calls until more of it comes. -/
def remaining (image : List UInt8) (s : State) : Nat :=
  4 * (image.length - (received s.calls).length) + s.pc.rank

theorem remaining_of_step (hu : Uploads p image s l) (hstep : step p s l = some t) :
    remaining image t < remaining image s := by
  have hreceived := received_of_step hstep
  by_cases hl : ∃ bytes, l = .recv (.data bytes)
  · obtain ⟨bytes, rfl⟩ := hl
    have hle := hu.length_le
    obtain ⟨⟨hlabel, hwithin⟩, rfl⟩ := step_eq_some.mp hstep
    have hpos := (RecvResult.within_data.mp hwithin).1
    have hrank : (effect p s (.recv (.data bytes))).pc.rank ≤ 6 := by
      rw [recv_data_pc]
      split
      · exact Nat.le_refl 6
      · split <;> simp [Pc.rank]
    have hfrom : s.pc.rank = 3 := by
      rw [hlabel]
      rfl
    rw [List.length_append] at hle
    rw [remaining, remaining, hreceived, Label.received, List.length_append, hfrom]
    omega
  · have hrank := rank_of_step hstep fun bytes heq => hl ⟨bytes, heq⟩
    have hsame : received t.calls = received s.calls := by
      rw [hreceived]
      cases l with
      | recv r =>
          cases r with
          | data bytes => exact absurd ⟨bytes, rfl⟩ hl
          | closed | error => exact List.append_nil _
      | _ => exact List.append_nil _
    rw [remaining, remaining, hsame]
    omega

/-- An upload comes to its end. -/
theorem upload_length_le {ls : List Label} (rxBuffer : Nat → UInt8)
    (hu : EachStep (step p) (Uploads p image) (start rxBuffer) ls)
    (hr : run (step p) (start rxBuffer) ls = some t) : ls.length ≤ 4 * image.length + 6 := by
  have hlen := length_run_le (I := fun _ => True) (m := remaining image) (fun _ _ _ h _ _ => h)
    (fun _ _ _ _ hl hstep => remaining_of_step hl hstep) trivial hu hr
  have hstart : remaining image (start rxBuffer) = 4 * image.length + 6 := rfl
  omega

end Uploads

/-- A session that is uploaded the image, over any chunks, and has returned. -/
structure Upload (p : Platform) (image : List UInt8) (rxBuffer : Nat → UInt8) (ls : List Label)
    (t : State) : Prop where
  run : run (step p) (start rxBuffer) ls = some t
  uploads : EachStep (step p) (Uploads p image) (start rxBuffer) ls
  returned : ∃ code, t.pc = .returned code

section FinishedUploads
variable {p : Platform} {image : List UInt8} {rxBuffer rxBuffer' : Nat → UInt8}
variable {ls ls' : List Label} {t t' : State}

theorem Upload.complete_iff (hlen : p.headerSize < image.length)
    (h : Upload p image rxBuffer ls t) :
    (Complete image t ↔ HeaderFits p image (chunks ls)) ∧
      (Complete image t → t.pc = .returned 0) := by
  have hend :=
    uploading_of_run (ne_nil_of_headerSize hlen) (uploading_start rxBuffer) h.uploads h.run
  obtain ⟨code, hcode⟩ := h.returned
  obtain ⟨hiff, hzero⟩ := complete_iff_headerFits hlen hend hcode
  exact ⟨hiff, fun hc => hzero hc ▸ hcode⟩

/-- Two uploads of the same image. -/
theorem upload_complete_iff (hlen : p.headerSize < image.length)
    (h : Upload p image rxBuffer ls t) (h' : Upload p image rxBuffer' ls' t') :
    (Complete image t ∧ Complete image t' ∧ written t.calls = written t'.calls ∧ t.pc = t'.pc) ↔
      HeaderFits p image (chunks ls) ∧ HeaderFits p image (chunks ls') := by
  obtain ⟨hiff, hcode⟩ := h.complete_iff hlen
  obtain ⟨hiff', hcode'⟩ := h'.complete_iff hlen
  rw [← hiff, ← hiff']
  constructor
  · rintro ⟨hc, hc', _⟩
    exact ⟨hc, hc'⟩
  · rintro ⟨hc, hc'⟩
    exact ⟨hc, hc', hc.1.trans hc'.1.symm, (hcode hc).trans (hcode' hc').symm⟩

end FinishedUploads

/-- The splitting: what comes before the header is complete, the chunk that completes it, and what
comes behind it. -/
def uploadSession (before : List (List UInt8)) (completing : List UInt8)
    (behind : List (List UInt8)) (ending : List Label) : List Label :=
  [.stateOf true, .bootPartition true, .nextUpdatePartition true 0 0] ++
    before.flatMap (fun chunk => [.recv (.data chunk), .sendAck]) ++
    [.recv (.data completing), .lastInvalid ⟨false, none, []⟩, .otaBegin true 5, .sendAck] ++
    behind.flatMap (fun chunk => [.recv (.data chunk), .otaWrite true, .ticks 6 6 6 6, .sendAck]) ++
    .recv .closed :: ending

/-- An image of 291 bytes. -/
def smallImage : List UInt8 := List.replicate 100 0xe9 ++ List.replicate 191 0x01

def evenSession : List Label :=
  uploadSession [List.replicate 100 0xe9] (List.replicate 189 0x01) [[0x01, 0x01]]
    [.otaEnd true, .setBootPartition true]

def unevenSession : List Label :=
  uploadSession [] (List.replicate 100 0xe9 ++ List.replicate 189 0x01) [[0x01], [0x01]]
    [.otaEnd true, .setBootPartition true]

/-- The last chunk completes the header. -/
def lateSession : List Label :=
  uploadSession [List.replicate 100 0xe9] (List.replicate 191 0x01) [] [.otaEnd false]

theorem upload_of_returned {p : Platform} {image : List UInt8} {rxBuffer : Nat → UInt8}
    {ls : List Label} (code : Int)
    (hrun : (run (step p) (start rxBuffer) ls).map State.pc = some (.returned code))
    (huploads : EachStep (step p) (Uploads p image) (start rxBuffer) ls) :
    ∃ t, Upload p image rxBuffer ls t := by
  obtain ⟨t, ht, hpc⟩ := Option.map_eq_some_iff.mp hrun
  exact ⟨t, ht, huploads, code, hpc⟩

theorem upload_complete_small : ∃ t t',
    Upload espIdf smallImage (fun _ => 0) evenSession t ∧
      Upload espIdf smallImage (fun _ => 1) unevenSession t' ∧
      Complete smallImage t ∧ Complete smallImage t' ∧ written t.calls = written t'.calls ∧
      t.pc = t'.pc := by
  obtain ⟨t, h⟩ : ∃ t, Upload espIdf smallImage (fun _ => 0) evenSession t :=
    upload_of_returned 0 (by decide +kernel) (by decide +kernel)
  obtain ⟨t', h'⟩ : ∃ t, Upload espIdf smallImage (fun _ => 1) unevenSession t :=
    upload_of_returned 0 (by decide +kernel) (by decide +kernel)
  refine ⟨t, t', h, h', (upload_complete_iff (by decide +kernel) h h').mpr ⟨?_, ?_⟩⟩
  · exact ⟨289, by decide +kernel, by decide, by decide +kernel⟩
  · exact ⟨289, by decide +kernel, by decide, by decide +kernel⟩

theorem late_header_is_lost :
    ∃ t, Upload espIdf smallImage (fun _ => 0) lateSession t ∧ ¬Complete smallImage t := by
  obtain ⟨t, h⟩ : ∃ t, Upload espIdf smallImage (fun _ => 0) lateSession t :=
    upload_of_returned (-8) (by decide +kernel) (by decide +kernel)
  refine ⟨t, h, fun hcomplete => ?_⟩
  have hwritten : (run (step espIdf) (start fun _ => 0) lateSession).map
      (fun t => written t.calls) = some [] := by
    decide +kernel
  rw [h.run, Option.map_some] at hwritten
  exact absurd (Option.some.inj hwritten ▸ hcomplete.1) (by decide +kernel)

end InfoGlobe.OtaRetransmit
