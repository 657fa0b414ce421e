import InfoGlobe.Library.CallLog
import InfoGlobe.Firmware.OtaRetransmit

/-!
Integrity of an update: whatever the stream and the flash calls do, the buffer is never overrun,
the handle is opened at most once and written only then, a session that returns 0 has written all
it received, and one that fails has left the boot partition alone.
-/

namespace InfoGlobe.OtaRetransmit
open StepSystem FlatMemory CallLog

/-- `esp_ota_end` fails on a handle that was never begun or never written. -/
def EndContract (s : State) (l : Label) : Prop :=
  l = .otaEnd true → .otaBegin true ∈ s.calls ∧ written s.calls ≠ []

instance (s : State) (l : Label) : Decidable (EndContract s l) :=
  inferInstanceAs (Decidable (_ → _))

/-- What a call may rely on from the calls before it. `recv` gets the free tail of the buffer: in
front of it lie the bytes that were received and not yet written. -/
def Disciplined (past : List Call) : Call → Prop
  | .recv offset capacity _ =>
      0 ≤ offset ∧ offset + capacity = buffSize ∧
        ((received past).length : Int) = (written past).length + offset
  | .otaBegin _ => ∀ ok, .otaBegin ok ∉ past
  | .otaWrite _ _ => .otaBegin true ∈ past
  | _ => True

structure Integrity (s : State) : Prop where
  dataRead_nonneg : 0 ≤ s.dataRead
  dataRead_le : s.dataRead ≤ buffSize
  disciplined : EachEntry Disciplined s.calls
  complete : s.pc = .returned 0 → written s.calls = received s.calls
  bootKept : ∀ code, s.pc = .returned code → code ≠ 0 → .setBootPartition true ∉ s.calls

/-- The handle has not been asked for yet. -/
def Unopened (s : State) : Prop := s.imageHeaderWasChecked = false ∨ s.pc = .otaBegin

/-- Whether the header was checked, where the code no longer looks. -/
def Gate (s : State) : Prop :=
  match s.pc with
  | .checkVersion => s.imageHeaderWasChecked = false
  | .otaBegin | .otaWrite | .showProgress => s.imageHeaderWasChecked = true
  | _ => True

/-- What holds while the session runs. -/
structure Live (s : State) : Prop where
  gate : Gate s
  fresh : Unopened s → (∀ ok, .otaBegin ok ∉ s.calls) ∧ written s.calls = []
  opened : ¬Unopened s → .otaBegin true ∈ s.calls
  pending : received s.calls = written s.calls ++ readAt s.rxBuffer 0 s.dataRead.toNat
  flushed : written s.calls ≠ [] → s.pc ≠ .otaWrite → s.dataRead = 0
  ended : s.pc = .setBootPartition → s.dataRead = 0
  boot : .setBootPartition true ∉ s.calls

def Running (s : State) : Prop := ∀ code, s.pc ≠ .returned code

structure Consistent (s : State) : Prop where
  integrity : Integrity s
  live : Running s → Live s

theorem consistent_start (rxBuffer : Nat → UInt8) : Consistent (start rxBuffer) := by
  refine ⟨⟨Int.le_refl 0, ?_, eachEntry_nil, by simp [start], by simp [start]⟩, ?_⟩
  · simp [start]
  · intro _
    constructor <;> simp [start, Gate, Unopened, received, written]

/-! ### Frames -/

theorem integrity_of_running {s : State} (nonneg : 0 ≤ s.dataRead) (le : s.dataRead ≤ buffSize)
    (disciplined : EachEntry Disciplined s.calls) (hrun : Running s) : Integrity s :=
  ⟨nonneg, le, disciplined, fun hpc => absurd hpc (hrun 0), fun code hpc => absurd hpc (hrun code)⟩

theorem Integrity.log {s : State} {c : Call} (h : Integrity s)
    (hrun : Running s) (hc : Disciplined s.calls c) : Integrity (s.log c) :=
  integrity_of_running h.dataRead_nonneg h.dataRead_le (h.disciplined.snoc hc) hrun

theorem Integrity.frame {s t : State} (h : Integrity s) (hread : t.dataRead = s.dataRead)
    (hcalls : t.calls = s.calls) (hrun : Running t) : Integrity t :=
  integrity_of_running (hread ▸ h.dataRead_nonneg) (hread ▸ h.dataRead_le)
    (hcalls ▸ h.disciplined) hrun

/-- A call that the invariant does not speak of. -/
structure Silent (c : Call) : Prop where
  received : c.received = []
  written : c.written = []
  begin : ∀ ok, .otaBegin ok ≠ c
  boot : .setBootPartition true ≠ c

theorem Live.log {s : State} {c : Call} (h : Live s) (hc : Silent c) : Live (s.log c) := by
  obtain ⟨gate, fresh, opened, pending, flushed, ended, boot⟩ := h
  refine ⟨gate, ?_, ?_, ?_, ?_, ended, ?_⟩
  · intro hun
    obtain ⟨hbegin, hwritten⟩ := fresh hun
    exact ⟨fun ok => by simp [hbegin ok, hc.begin ok], by simp [hwritten, hc.written]⟩
  · intro hun
    simp [opened hun]
  · simpa [hc.received, hc.written] using pending
  · simpa [hc.written] using flushed
  · simp [boot, hc.boot]

/-- Places that the handle and the buffer reach unchanged. -/
def plain : Pc → Bool
  | .getBootPartition | .getNextUpdatePartition | .recv | .sendAck | .otaEnd => true
  | _ => false

/-- Moving on to such a place. -/
theorem consistent_frame {s t : State} (hi : Integrity s) (h : Live s)
    (hchecked : t.imageHeaderWasChecked = s.imageHeaderWasChecked)
    (hbuffer : t.rxBuffer = s.rxBuffer) (hread : t.dataRead = s.dataRead)
    (hcalls : t.calls = s.calls) (hfrom : s.pc ≠ .otaBegin ∧ s.pc ≠ .otaWrite)
    (hto : plain t.pc = true) : Consistent t := by
  have hrun : Running t := by
    rintro code hpc
    simp [hpc, plain] at hto
  have hbegin : t.pc ≠ .otaBegin := by
    intro hpc
    simp [hpc, plain] at hto
  have hun : Unopened t ↔ Unopened s := by simp [Unopened, hchecked, hfrom.1, hbegin]
  refine ⟨hi.frame hread hcalls hrun, fun _ => ⟨?_, ?_, ?_, ?_, ?_, ?_, ?_⟩⟩
  · cases hpc : t.pc <;> simp_all [Gate, plain]
  · rw [hun, hcalls]
    exact h.fresh
  · rw [hun, hcalls]
    exact h.opened
  · rw [hcalls, hbuffer, hread]
    exact h.pending
  · rw [hcalls, hread]
    exact fun hne _ => h.flushed hne hfrom.2
  · intro hpc
    simp [hpc, plain] at hto
  · rw [hcalls]
    exact h.boot

/-- A failing return keeps the invariant, given that the boot partition was not set. -/
theorem consistent_freeAndReturn {s : State} {code : Int} (h : Integrity s) (hcode : code ≠ 0)
    (hboot : .setBootPartition true ∉ s.calls) : Consistent (s.freeAndReturn code) := by
  have hcalls : (s.freeAndReturn code).calls = (s.log .free).calls := rfl
  refine ⟨⟨h.dataRead_nonneg, h.dataRead_le, ?_, ?_, ?_⟩, ?_⟩
  · exact h.disciplined.snoc trivial
  · intro hpc
    exact absurd (Pc.returned.inj hpc) hcode
  · intro _ _ _
    rw [hcalls, mem_log]
    simpa using hboot
  · intro hrun
    exact absurd rfl (hrun code)

/-! ### Each call -/

section Steps
variable {p : Platform} {s : State}

theorem consistent_stateOf (h : Consistent s) (hpc : s.pc = .getState) (pendingVerify : Bool) :
    Consistent (effect p s (.stateOf pendingVerify)) := by
  have hrun : Running s := by simp [Running, hpc]
  have live := h.live hrun
  have hsilent : Silent .markAppValid := ⟨rfl, rfl, by simp, by simp⟩
  cases pendingVerify with
  | true =>
      have logged := h.integrity.log hrun (c := .markAppValid) trivial
      exact consistent_frame logged (live.log hsilent) rfl rfl rfl rfl (by simp [hpc]) rfl
  | false => exact consistent_frame h.integrity live rfl rfl rfl rfl (by simp [hpc]) rfl

theorem consistent_bootPartition (h : Consistent s) (hpc : s.pc = .getBootPartition)
    (found : Bool) : Consistent (effect p s (.bootPartition found)) := by
  have live := h.live (by simp [Running, hpc])
  cases found with
  | true => exact consistent_frame h.integrity live rfl rfl rfl rfl (by simp [hpc]) rfl
  | false => exact consistent_freeAndReturn h.integrity (by decide) live.boot

theorem consistent_nextUpdatePartition (h : Consistent s) (hpc : s.pc = .getNextUpdatePartition)
    (found : Bool) (startTime printTime : UInt32) :
    Consistent (effect p s (.nextUpdatePartition found startTime printTime)) := by
  have live := h.live (by simp [Running, hpc])
  cases found with
  | true => exact consistent_frame h.integrity live rfl rfl rfl rfl (by simp [hpc]) rfl
  | false => exact consistent_freeAndReturn h.integrity (by decide) live.boot

theorem disciplined_recv (h : Integrity s) (live : Live s) (r : RecvResult) :
    Disciplined s.calls (.recv s.dataRead (buffSize - s.dataRead) r) := by
  have nonneg := h.dataRead_nonneg
  have hlen := congrArg List.length live.pending
  rw [List.length_append, length_readAt] at hlen
  exact ⟨nonneg, by omega, by omega⟩

/-- A chunk goes behind the bytes that are already waiting. -/
theorem pending_recv (nonneg : 0 ≤ s.dataRead)
    (hpending : received s.calls = written s.calls ++ readAt s.rxBuffer 0 s.dataRead.toNat)
    (bytes : List UInt8) :
    received s.calls ++ bytes = written s.calls ++
      readAt (writeAt s.rxBuffer s.dataRead.toNat bytes) 0 (s.dataRead + bytes.length).toNat := by
  have hsum : (s.dataRead + bytes.length).toNat = s.dataRead.toNat + bytes.length := by omega
  have happend := readAt_writeAt_append s.rxBuffer 0 s.dataRead.toNat bytes
  rw [Nat.zero_add] at happend
  rw [hsum, happend, hpending, List.append_assoc]

theorem recv_data_pc (bytes : List UInt8) : (effect p s (.recv (.data bytes))).pc =
    if s.imageHeaderWasChecked then .otaWrite
    else if p.headerSize < s.dataRead + bytes.length then .checkVersion else .sendAck :=
  rfl

/-- The handle is open, and what has gathered is written next. -/
theorem live_recv_checked (live : Live s) (hpc : s.pc = .recv) (nonneg : 0 ≤ s.dataRead)
    (hchecked : s.imageHeaderWasChecked = true) (bytes : List UInt8) :
    Live (effect p s (.recv (.data bytes))) := by
  have hpending := pending_recv nonneg live.pending bytes
  have hpc' : (effect p s (.recv (.data bytes))).pc = .otaWrite := by
    rw [recv_data_pc, if_pos hchecked]
  have hopened := live.opened (by simp [Unopened, hchecked, hpc])
  refine ⟨?_, ?_, ?_, ?_, ?_, ?_, ?_⟩
  · simp only [Gate, hpc']
    exact hchecked
  · intro hun
    simp [Unopened, effect, afterRecv, hchecked] at hun
  · intro _
    simp [effect, afterRecv, hopened]
  · simpa [effect, afterRecv, Call.received, Call.written] using hpending
  · exact fun _ hne => absurd hpc' hne
  · simp [hpc']
  · simpa [effect, afterRecv] using live.boot

/-- Nothing has been written, and the header is still gathering or complete now. -/
theorem live_recv_unchecked (live : Live s) (nonneg : 0 ≤ s.dataRead)
    (hchecked : s.imageHeaderWasChecked = false) (bytes : List UInt8) :
    Live (effect p s (.recv (.data bytes))) := by
  have hpending := pending_recv nonneg live.pending bytes
  obtain ⟨hbegin, hwritten⟩ := live.fresh (.inl hchecked)
  have hpc' := recv_data_pc (p := p) (s := s) bytes
  rw [hchecked, if_neg (by decide)] at hpc'
  refine ⟨?_, ?_, ?_, ?_, ?_, ?_, ?_⟩
  · by_cases hheader : (p.headerSize : Int) < s.dataRead + bytes.length
    · rw [if_pos hheader] at hpc'
      simp only [Gate, hpc']
      exact hchecked
    · rw [if_neg hheader] at hpc'
      simp only [Gate, hpc']
  · intro _
    exact ⟨fun ok => by simp [effect, afterRecv, hbegin ok],
      by simp [effect, afterRecv, hwritten, Call.written]⟩
  · intro hun
    exact absurd (.inl hchecked) hun
  · simpa [effect, afterRecv, Call.received, Call.written] using hpending
  · intro hne
    simp [effect, afterRecv, hwritten, Call.written] at hne
  · rw [hpc']
    split <;> simp
  · simpa [effect, afterRecv] using live.boot

theorem consistent_recv (h : Consistent s) (hpc : s.pc = .recv) {r : RecvResult}
    (hwithin : r.within (buffSize - s.dataRead) = true) :
    Consistent (effect p s (.recv r)) := by
  have hrun : Running s := by simp [Running, hpc]
  have live := h.live hrun
  have logged := h.integrity.log hrun (disciplined_recv h.integrity live r)
  cases r with
  | error =>
      apply consistent_freeAndReturn logged (by decide)
      simpa using live.boot
  | closed =>
      have hsilent : Silent (.recv s.dataRead (buffSize - s.dataRead) .closed) :=
        ⟨rfl, rfl, by simp, by simp⟩
      exact consistent_frame logged (live.log hsilent) rfl rfl rfl rfl (by simp [hpc]) rfl
  | data bytes =>
      have nonneg := h.integrity.dataRead_nonneg
      obtain ⟨_, hle⟩ := RecvResult.within_data.mp hwithin
      have hrun' : Running (effect p s (.recv (.data bytes))) := by
        intro code
        rw [recv_data_pc]
        split
        · exact Pc.noConfusion
        · split <;> exact Pc.noConfusion
      refine ⟨integrity_of_running (by simp [effect, afterRecv]; omega)
        (by simp [effect, afterRecv]; omega) logged.disciplined hrun', fun _ => ?_⟩
      cases hchecked : s.imageHeaderWasChecked with
      | true => exact live_recv_checked live hpc nonneg hchecked bytes
      | false => exact live_recv_unchecked live nonneg hchecked bytes

theorem consistent_lastInvalid (h : Consistent s) (hpc : s.pc = .checkVersion)
    (app : LastInvalid) : Consistent (effect p s (.lastInvalid app)) := by
  have live := h.live (by simp [Running, hpc])
  have hunchecked : s.imageHeaderWasChecked = false := by
    simpa [Gate, hpc] using live.gate
  obtain ⟨hbegin, hwritten⟩ := live.fresh (.inl hunchecked)
  simp only [effect]
  split
  · exact consistent_freeAndReturn h.integrity (by decide) live.boot
  · refine ⟨h.integrity.frame rfl rfl (by simp [Running]), fun _ => ?_⟩
    exact ⟨rfl, fun _ => ⟨hbegin, hwritten⟩, fun hun => absurd (.inr rfl) hun, live.pending,
      fun hne => absurd hwritten hne, by simp, live.boot⟩

theorem consistent_otaBegin (h : Consistent s) (hpc : s.pc = .otaBegin) (ok : Bool)
    (now : UInt32) : Consistent (effect p s (.otaBegin ok now)) := by
  have hrun : Running s := by simp [Running, hpc]
  have live := h.live hrun
  obtain ⟨hbegin, hwritten⟩ := live.fresh (.inr hpc)
  have hchecked : s.imageHeaderWasChecked = true := by
    simpa [Gate, hpc] using live.gate
  have logged := h.integrity.log hrun (c := .otaBegin ok) hbegin
  cases ok with
  | true =>
      refine ⟨logged.frame rfl rfl (by simp [Running, effect]), fun _ => ?_⟩
      refine ⟨trivial, ?_, ?_, ?_, ?_, by simp [effect], ?_⟩
      · intro hun
        simp [Unopened, effect, hchecked] at hun
      · simp [effect]
      · simpa [effect, Call.received, Call.written] using live.pending
      · simp [effect, hwritten, Call.written]
      · simpa [effect] using live.boot
  | false =>
      have hrun' : Running (s.log (.otaBegin false)) := by simpa [Running] using hrun
      apply consistent_freeAndReturn (logged.log hrun' (c := .otaAbort) trivial) (by decide)
      simpa using live.boot

theorem consistent_otaWrite (h : Consistent s) (hpc : s.pc = .otaWrite) (ok : Bool) :
    Consistent (effect p s (.otaWrite ok)) := by
  have hrun : Running s := by simp [Running, hpc]
  have live := h.live hrun
  have hchecked : s.imageHeaderWasChecked = true := by
    simpa [Gate, hpc] using live.gate
  have hopened : .otaBegin true ∈ s.calls := live.opened (by simp [Unopened, hchecked, hpc])
  have logged := h.integrity.log hrun
    (c := .otaWrite (readAt s.rxBuffer 0 s.dataRead.toNat) ok) hopened
  cases ok with
  | true =>
      refine ⟨integrity_of_running (Int.le_refl 0) (by simp [effect, afterWrite])
        logged.disciplined (by simp [Running, effect, afterWrite]), fun _ => ?_⟩
      refine ⟨hchecked, ?_, ?_, ?_, fun _ _ => rfl, by simp [effect, afterWrite], ?_⟩
      · intro hun
        simp [Unopened, effect, afterWrite, hchecked] at hun
      · simp [effect, afterWrite, hopened]
      · simpa [effect, afterWrite, Call.received, Call.written] using live.pending
      · simpa [effect, afterWrite] using live.boot
  | false =>
      apply consistent_freeAndReturn (logged.log (c := .otaAbort) ?_ trivial) (by decide)
      · simpa using live.boot
      · simpa [Running] using hrun

theorem consistent_ticks (h : Consistent s) (hpc : s.pc = .showProgress) (a b c d : UInt32) :
    Consistent (effect p s (.ticks a b c d)) := by
  have live := h.live (by simp [Running, hpc])
  simp only [effect, afterTicks]
  split
  · exact consistent_frame h.integrity live rfl rfl rfl rfl (by simp [hpc]) rfl
  · exact consistent_frame h.integrity live rfl rfl rfl rfl (by simp [hpc]) rfl

theorem consistent_sendAck (h : Consistent s) (hpc : s.pc = .sendAck) :
    Consistent (effect p s .sendAck) := by
  have hrun : Running s := by simp [Running, hpc]
  have logged := h.integrity.log hrun (c := .sendAck) trivial
  have hsilent : Silent .sendAck := ⟨rfl, rfl, by simp, by simp⟩
  exact consistent_frame logged ((h.live hrun).log hsilent) rfl rfl rfl rfl (by simp [hpc]) rfl

theorem consistent_otaEnd (h : Consistent s) (hpc : s.pc = .otaEnd) (ok : Bool)
    (contract : EndContract s (.otaEnd ok)) : Consistent (effect p s (.otaEnd ok)) := by
  have hrun : Running s := by simp [Running, hpc]
  have live := h.live hrun
  have logged := h.integrity.log hrun (c := .otaEnd ok) trivial
  cases ok with
  | true =>
      obtain ⟨_, hwritten⟩ := contract rfl
      have hread : s.dataRead = 0 := live.flushed hwritten (by simp [hpc])
      have hun : ¬Unopened s := fun hun => hwritten (live.fresh hun).2
      have hopened := live.opened hun
      refine ⟨logged.frame rfl rfl (by simp [Running, effect]), fun _ => ?_⟩
      refine ⟨trivial, ?_, ?_, ?_, fun _ _ => hread, fun _ => hread, ?_⟩
      · intro hun'
        simp only [Unopened, effect, if_true, log_imageHeaderWasChecked, reduceCtorEq,
          or_false] at hun'
        exact absurd (.inl hun') hun
      · simp [effect, hopened]
      · simpa [effect, Call.received, Call.written] using live.pending
      · simpa [effect] using live.boot
  | false =>
      apply consistent_freeAndReturn logged (by decide)
      simpa using live.boot

theorem consistent_setBootPartition (h : Consistent s) (hpc : s.pc = .setBootPartition)
    (ok : Bool) : Consistent (effect p s (.setBootPartition ok)) := by
  have hrun : Running s := by simp [Running, hpc]
  have live := h.live hrun
  have logged := h.integrity.log hrun (c := .setBootPartition ok) trivial
  cases ok with
  | true =>
      have hdone : written s.calls = received s.calls := by
        rw [live.pending, live.ended hpc]
        simp
      refine ⟨⟨logged.dataRead_nonneg, logged.dataRead_le, logged.disciplined.snoc trivial, ?_, ?_⟩,
        fun hrun' => absurd rfl (hrun' 0)⟩
      · intro _
        simpa [effect, State.freeAndReturn, Call.received, Call.written] using hdone
      · rintro code hcode hne
        exact absurd (Pc.returned.inj hcode).symm hne
  | false =>
      apply consistent_freeAndReturn logged (by decide)
      simpa using live.boot

end Steps

theorem consistent_step (p : Platform) (s : State) (l : Label) (t : State) (h : Consistent s)
    (contract : EndContract s l) (hstep : step p s l = some t) : Consistent t := by
  obtain ⟨⟨hpc, hpossible⟩, rfl⟩ := step_eq_some.mp hstep
  cases l with
  | stateOf pendingVerify => exact consistent_stateOf h hpc pendingVerify
  | bootPartition found => exact consistent_bootPartition h hpc found
  | nextUpdatePartition found startTime printTime =>
      exact consistent_nextUpdatePartition h hpc found startTime printTime
  | recv r => exact consistent_recv h hpc hpossible
  | lastInvalid app => exact consistent_lastInvalid h hpc app
  | otaBegin ok now => exact consistent_otaBegin h hpc ok now
  | otaWrite ok => exact consistent_otaWrite h hpc ok
  | ticks a b c d => exact consistent_ticks h hpc a b c d
  | sendAck => exact consistent_sendAck h hpc
  | otaEnd ok => exact consistent_otaEnd h hpc ok contract
  | setBootPartition ok => exact consistent_setBootPartition h hpc ok

/-- Integrity of the session, for every stream and every outcome of the flash calls. -/
theorem ota_integrity (p : Platform) (rxBuffer : Nat → UInt8) (ls : List Label)
    (contract : EachStep (step p) EndContract (start rxBuffer) ls) :
    Always (step p) Integrity (start rxBuffer) ls :=
  always_of_eachStep (fun _ h => h.integrity) (consistent_step p) (consistent_start rxBuffer)
    contract

/-- An update in three chunks: a part of the header, the rest of it, and the rest of the image. -/
def updateSession : List Label :=
  [.stateOf true, .bootPartition true, .nextUpdatePartition true 0 0,
    .recv (.data (List.replicate 100 0xe9)), .sendAck,
    .recv (.data (List.replicate 189 0x01)), .lastInvalid ⟨false, none, []⟩, .otaBegin true 5,
    .sendAck, .recv (.data [0x02, 0x03]), .otaWrite true, .ticks 6 6 6 6, .sendAck,
    .recv .closed, .otaEnd true, .setBootPartition true]

theorem ota_integrity_session :
    Always (step espIdf) Integrity (start fun _ => 0) updateSession ∧
      (run (step espIdf) (start fun _ => 0) updateSession).map State.pc = some (.returned 0) :=
  ⟨ota_integrity espIdf (fun _ => 0) updateSession (by decide +kernel), by decide +kernel⟩

end InfoGlobe.OtaRetransmit
