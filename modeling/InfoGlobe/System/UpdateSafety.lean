import InfoGlobe.Library.SlotUpdate
import InfoGlobe.Firmware.OtaVersionGate
import InfoGlobe.Firmware.OtaServerTask

/-!
The update port and the flash it drives, over any number of sessions, restarts and power failures.
The slots of the flash hold the bytes that the flash calls of `do_retransmit` leave there; what the
flash API promises of its calls is a condition on the steps of a run.
-/

namespace InfoGlobe.UpdateSafety
open StepSystem FlatMemory SlotUpdate OtaRetransmit
universe u
variable {κ : Type u}

/-- What comes from the flash: the slot that the query for the next update partition names, what a
call does to the device, and the bytes that a failing call leaves in the slot. -/
structure Flash (κ : Type u) where
  slot : κ
  op : Option (Op κ (List UInt8))
  left : List UInt8

structure State (κ : Type u) where
  task : OtaServerTask.State
  device : Device κ (List UInt8)
  /-- `update_partition`. -/
  target : κ
  /-- All that came in over each connection that its client has closed. -/
  streams : List (List UInt8)

inductive Label (κ : Type u)
  | task (l : OtaServerTask.Label) (flash : Flash κ)
  /-- The start after `esp_restart`, or after a power failure at any moment. -/
  | boot (op : Option (Op κ (List UInt8)))

/-- What happens to the device. -/
def Label.op : Label κ → Option (Op κ (List UInt8))
  | .task _ flash => flash.op
  | .boot op => op

/-- The device is switched on for the first time. -/
def start (device : Device κ (List UInt8)) : State κ where
  task := OtaServerTask.start
  device := device
  target := device.running
  streams := []

def targetAfter (s : State κ) : Label κ → κ
  | .task (.session (.nextUpdatePartition true _ _)) flash => flash.slot
  | _ => s.target

def streamsAfter (s : State κ) : Label κ → List (List UInt8)
  | .task (.session (.recv .closed)) _ => s.streams ++ [received s.task.session.calls]
  | _ => s.streams

def taskAfter (p : Platform) (s : State κ) : Label κ → Option OtaServerTask.State
  | .task l _ => OtaServerTask.step p s.task l
  | .boot _ => some OtaServerTask.start

def step [DecidableEq κ] (p : Platform) (s : State κ) (l : Label κ) : Option (State κ) :=
  (taskAfter p s l).map fun task =>
    { task := task
      device := l.op.elim s.device s.device.apply
      target := targetAfter s l
      streams := streamsAfter s l }

/-! ### What the flash promises -/

/-- A handle begins an empty image, a write appends to it, a failing one of the two may leave
anything in the slot, and a failing `esp_ota_set_boot_partition` changes nothing. -/
def flashOp (s : State κ) (left : List UInt8) :
    OtaRetransmit.Label → Option (Op κ (List UInt8))
  | .otaBegin ok _ => some (.store s.target (if ok then [] else left))
  | .otaWrite ok =>
      let written := readAt s.task.session.rxBuffer 0 s.task.session.dataRead.toNat
      some (.store s.target (if ok then s.device.content s.target ++ written else left))
  | .setBootPartition true => some (.setBoot s.target)
  | _ => none

def promisedOp (s : State κ) : Label κ → Option (Op κ (List UInt8))
  | .task (.session l) flash => flashOp s flash.left l
  | .task _ _ => none
  | .boot _ => some .restart

/-- The next update partition is not the running one, and `esp_ota_end` succeeds on an open handle
with an image that passes the verification. -/
def Answers (Good : List UInt8 → Prop) (s : State κ) : Label κ → Prop
  | .task (.session (.nextUpdatePartition true _ _)) flash => flash.slot ≠ s.device.running
  | .task (.session (.otaEnd true)) _ =>
      (.otaBegin true ∈ s.task.session.calls ∧ written s.task.session.calls ≠ []) ∧
        Good (s.device.content s.target)
  | _ => True

instance [DecidableEq κ] (Good : List UInt8 → Prop) [DecidablePred Good] (s : State κ)
    (l : Label κ) : Decidable (Answers Good s l) := by
  unfold Answers
  split <;> infer_instance

structure FlashContract (Good : List UInt8 → Prop) (s : State κ) (l : Label κ) : Prop where
  effect : l.op = promisedOp s l
  answers : Answers Good s l

instance [DecidableEq κ] (Good : List UInt8 → Prop) [DecidablePred Good] (s : State κ)
    (l : Label κ) : Decidable (FlashContract Good s l) :=
  decidable_of_iff (l.op = promisedOp s l ∧ Answers Good s l)
    ⟨fun h => ⟨h.1, h.2⟩, fun h => ⟨h.effect, h.answers⟩⟩

/-- What a power failure finds at any moment. -/
structure Safe (Good : List UInt8 → Prop) (first : List UInt8) (s : State κ) : Prop where
  bootable : Bootable Good s.device
  /-- The image to boot is the first one or all that one client has sent. -/
  origin : s.device.bootImage = first ∨ s.device.bootImage ∈ s.streams
  /-- A session that returned 0 has installed the stream of its client. -/
  installed : (0 : Int) ∈ s.task.rets → s.streams.getLast? = some s.device.bootImage

section Steps
variable [DecidableEq κ] {p : Platform} {s t : State κ} {l : Label κ}

theorem step_eq_some :
    step p s l = some t ↔ ∃ task, taskAfter p s l = some task ∧
      { task := task
        device := l.op.elim s.device s.device.apply
        target := targetAfter s l
        streams := streamsAfter s l } = t :=
  Option.map_eq_some_iff

theorem device_of_step (h : step p s l = some t) :
    t.device = l.op.elim s.device s.device.apply := by
  obtain ⟨_, _, rfl⟩ := step_eq_some.mp h
  rfl

end Steps

/-! ### The session and its slot -/

/-- The session knows its slot. -/
def chosen : OtaRetransmit.Pc → Bool
  | .getState | .getBootPartition | .getNextUpdatePartition | .returned _ => false
  | _ => true

/-- A running session, against the flash. -/
structure Session (Good : List UInt8 → Prop) (s : State κ) : Prop where
  running : Running s.task.session
  apart : chosen s.task.session.pc = true → s.target ≠ s.device.running
  fresh : chosen s.task.session.pc = false → .otaBegin true ∉ s.task.session.calls
  flashed : .otaBegin true ∈ s.task.session.calls →
    s.device.content s.target = written s.task.session.calls
  streamed : s.task.session.pc = .otaEnd ∨ s.task.session.pc = .setBootPartition →
    s.streams.getLast? = some (received s.task.session.calls)
  verified : s.task.session.pc = .setBootPartition →
    Good (s.device.content s.target) ∧ .otaBegin true ∈ s.task.session.calls

section Calls
variable {p : Platform} {s t : OtaRetransmit.State} {l : OtaRetransmit.Label}

theorem written_concat (calls : List Call) (c : Call) :
    written (calls ++ [c]) = written calls ++ c.written := by
  simp [written]

/-- Only the two calls on the handle change what has been written through it. -/
theorem handle_of_step (h : OtaRetransmit.step p s l = some t)
    (hl : l.pc ≠ .otaBegin ∧ l.pc ≠ .otaWrite) :
    written t.calls = written s.calls ∧ (.otaBegin true ∈ t.calls ↔ .otaBegin true ∈ s.calls) := by
  by_cases hquiet : l.quiet = true
  · obtain ⟨same, _⟩ := sameImage_of_step h hquiet
    exact ⟨same.written, same.begun true⟩
  · have hcalls := calls_of_step h
    cases l with
    | recv r =>
        cases r with
        | data bytes => simp [hcalls, Label.calls, written, Call.written]
        | closed | error => exact absurd rfl hquiet
    | lastInvalid app =>
        rw [hcalls, Label.calls]
        split <;> simp [written, Call.written]
    | otaBegin _ _ | otaWrite _ => simp [Label.pc] at hl
    | stateOf _ | bootPartition _ | nextUpdatePartition _ _ _ | ticks _ _ _ _ | sendAck
    | otaEnd _ | setBootPartition _ => exact absurd rfl hquiet

theorem returned_zero_iff (h : OtaRetransmit.step p s l = some t) :
    t.pc = .returned 0 ↔ l = .setBootPartition true := by
  constructor
  · intro hpc
    obtain ⟨_, rfl⟩ := OtaRetransmit.step_eq_some.mp h
    cases l with
    | setBootPartition ok =>
        cases ok with
        | true => rfl
        | false => simp [effect, State.freeAndReturn] at hpc
    | stateOf _ | sendAck => simp [effect] at hpc
    | bootPartition ok | nextUpdatePartition ok | otaBegin ok | otaEnd ok =>
        cases ok <;> simp [effect, State.freeAndReturn] at hpc
    | otaWrite ok => cases ok <;> simp [effect, afterWrite, State.freeAndReturn] at hpc
    | recv r =>
        cases r with
        | data bytes =>
            rw [recv_data_pc] at hpc
            split at hpc
            · exact absurd hpc (by simp)
            · split at hpc <;> exact absurd hpc (by simp)
        | closed | error => simp [effect, afterRecv, State.freeAndReturn] at hpc
    | lastInvalid app =>
        simp only [effect] at hpc
        split at hpc <;> simp [State.freeAndReturn] at hpc
    | ticks a b c d =>
        simp only [effect, afterTicks] at hpc
        split at hpc <;> exact absurd hpc (by simp)
  · rintro rfl
    obtain ⟨_, rfl⟩ := OtaRetransmit.step_eq_some.mp h
    rfl

/-- The session comes to know its slot by the query, and in no other way. -/
theorem chosen_of_step (h : OtaRetransmit.step p s l = some t) (ht : chosen t.pc = true) :
    chosen s.pc = true ∨ ∃ a b, l = .nextUpdatePartition true a b := by
  obtain ⟨⟨hpc, _⟩, rfl⟩ := OtaRetransmit.step_eq_some.mp h
  rw [hpc]
  cases l with
  | stateOf _ => simp [effect, chosen] at ht
  | bootPartition found => cases found <;> simp [effect, State.freeAndReturn, chosen] at ht
  | nextUpdatePartition found a b =>
      cases found with
      | true => exact .inr ⟨a, b, rfl⟩
      | false => simp [effect, State.freeAndReturn, chosen] at ht
  | recv _ | lastInvalid _ | otaBegin _ _ | otaWrite _ | ticks _ _ _ _ | sendAck | otaEnd _
  | setBootPartition _ => exact .inl rfl

theorem chosen_kept (h : OtaRetransmit.step p s l = some t) (hs : chosen s.pc = true)
    (hrun : Running t) : chosen t.pc = true := by
  cases hpc : t.pc with
  | returned code => exact absurd hpc (hrun code)
  | getState | getBootPartition | getNextUpdatePartition =>
      obtain ⟨⟨hlabel, _⟩, rfl⟩ := OtaRetransmit.step_eq_some.mp h
      rw [hlabel] at hs
      cases l with
      | stateOf _ | bootPartition _ | nextUpdatePartition _ _ _ => simp [Label.pc, chosen] at hs
      | sendAck => simp [effect] at hpc
      | otaBegin ok | otaEnd ok | setBootPartition ok =>
          cases ok <;> simp [effect, State.freeAndReturn] at hpc
      | otaWrite ok => cases ok <;> simp [effect, afterWrite, State.freeAndReturn] at hpc
      | recv r =>
          cases r with
          | data bytes =>
              rw [recv_data_pc] at hpc
              split at hpc
              · exact absurd hpc (by simp)
              · split at hpc <;> exact absurd hpc (by simp)
          | closed | error => simp [effect, afterRecv, State.freeAndReturn] at hpc
      | lastInvalid app =>
          simp only [effect] at hpc
          split at hpc <;> simp [State.freeAndReturn] at hpc
      | ticks a b c d =>
          simp only [effect, afterTicks] at hpc
          split at hpc <;> exact absurd hpc (by simp)
  | recv | checkVersion | otaBegin | otaWrite | showProgress | sendAck | otaEnd
  | setBootPartition => rfl

/-- The loop is left through a closed connection, and then the boot partition is set only behind a
successful `esp_ota_end`. -/
theorem ending_of_step (h : OtaRetransmit.step p s l = some t) :
    (t.pc = .otaEnd → l = .recv .closed) ∧ (t.pc = .setBootPartition → l = .otaEnd true) := by
  obtain ⟨_, rfl⟩ := OtaRetransmit.step_eq_some.mp h
  cases l with
  | stateOf _ | sendAck => simp [effect]
  | bootPartition ok | nextUpdatePartition ok | otaBegin ok | otaEnd ok | setBootPartition ok =>
      cases ok <;> simp [effect, State.freeAndReturn]
  | otaWrite ok => cases ok <;> simp [effect, afterWrite, State.freeAndReturn]
  | recv r =>
      cases r with
      | data bytes =>
          rw [recv_data_pc]
          split
          · simp
          · split <;> simp
      | closed | error => simp [effect, afterRecv, State.freeAndReturn]
  | lastInvalid app =>
      simp only [effect]
      split <;> simp [State.freeAndReturn]
  | ticks a b c d =>
      simp only [effect, afterTicks]
      split <;> simp

end Calls

/-! ### One step of a running session -/

section Sessions
variable {Good : List UInt8 → Prop} {p : Platform} {s t : State κ}
variable {l : OtaRetransmit.Label} {flash : Flash κ} {session : OtaRetransmit.State}

theorem consistent_session (hc : Consistent s.task.session)
    (contract : FlashContract Good s (.task (.session l) flash))
    (h : OtaRetransmit.step p s.task.session l = some session) : Consistent session := by
  refine consistent_step p s.task.session l session hc ?_ h
  rintro rfl
  exact contract.answers.1

/-- The flash is written in the slot of the session, and it is booted from there only when the
image has passed. -/
theorem Session.permitted (h : Session Good s) (settled : s.device.boot = s.device.running)
    (flash : Flash κ) (hstep : OtaRetransmit.step p s.task.session l = some session)
    {o : Op κ (List UInt8)} (ho : o ∈ promisedOp s (.task (.session l) flash)) : Permitted Good s.device o := by
  have hpc := (OtaRetransmit.step_eq_some.mp hstep).1.1
  have hapart : chosen s.task.session.pc = true → s.target ≠ s.device.running ∧
      s.target ≠ s.device.boot := fun hc => ⟨h.apart hc, settled ▸ h.apart hc⟩
  cases l with
  | otaBegin ok now =>
      obtain rfl := Option.some.inj ho
      exact hapart (by rw [hpc]; rfl)
  | otaWrite ok =>
      obtain rfl := Option.some.inj ho
      exact hapart (by rw [hpc]; rfl)
  | setBootPartition ok =>
      cases ok with
      | true =>
          obtain rfl := Option.some.inj ho
          exact (h.verified hpc).1
      | false => exact absurd ho (Option.not_mem_none o)
  | stateOf _ | bootPartition _ | nextUpdatePartition _ _ _ | recv _ | lastInvalid _
  | ticks _ _ _ _ | sendAck | otaEnd _ => exact absurd ho (Option.not_mem_none o)

/-- A call on the handle, which finds it open or opens it. -/
theorem Session.flashed_of_step [DecidableEq κ] (h : Session Good s) (hc : Consistent s.task.session)
    (hstep : OtaRetransmit.step p s.task.session l = some session) (hrun : Running session)
    (hbegin : .otaBegin true ∈ session.calls) :
    ((promisedOp s (.task (.session l) flash)).elim s.device s.device.apply).content s.target =
      written session.calls := by
  have live := hc.live h.running
  have hpc := (OtaRetransmit.step_eq_some.mp hstep).1.1
  have hcalls := calls_of_step hstep
  by_cases hl : l.pc ≠ .otaBegin ∧ l.pc ≠ .otaWrite
  · obtain ⟨hwritten, hbegun⟩ := handle_of_step hstep hl
    have hkept := h.flashed (hbegun.mp hbegin)
    rw [hwritten, ← hkept]
    cases l with
    | otaBegin _ _ | otaWrite _ => simp [Label.pc] at hl
    | setBootPartition ok => cases ok <;> rfl
    | stateOf _ | bootPartition _ | nextUpdatePartition _ _ _ | recv _ | lastInvalid _
    | ticks _ _ _ _ | sendAck | otaEnd _ => rfl
  · cases l with
    | otaBegin ok now =>
        obtain ⟨_, hwritten⟩ := live.fresh (.inr hpc)
        cases ok with
        | true =>
            have hnil : written session.calls = [] := by
              rw [hcalls]
              exact (written_concat _ _).trans (by rw [hwritten]; rfl)
            rw [hnil]
            exact apply_store_content_self s.target []
        | false =>
            obtain ⟨_, rfl⟩ := OtaRetransmit.step_eq_some.mp hstep
            exact absurd rfl (hrun (-6))
    | otaWrite ok =>
        cases ok with
        | true =>
            have hopen : .otaBegin true ∈ s.task.session.calls := by
              simpa [hcalls, Label.calls] using hbegin
            have hall := congrArg written hcalls
            rw [Label.calls, if_pos rfl, written_concat, ← h.flashed hopen] at hall
            rw [hall]
            exact apply_store_content_self s.target _
        | false =>
            obtain ⟨_, rfl⟩ := OtaRetransmit.step_eq_some.mp hstep
            exact absurd rfl (hrun (-7))
    | stateOf _ | bootPartition _ | nextUpdatePartition _ _ _ | recv _ | lastInvalid _
    | ticks _ _ _ _ | sendAck | otaEnd _ | setBootPartition _ => simp [Label.pc] at hl

theorem promisedOp_of_ne_setBoot (s : State κ) (flash : Flash κ) (hl : l ≠ .setBootPartition true) :
    promisedOp s (.task (.session l) flash) = none ∨
      ∃ image, promisedOp s (.task (.session l) flash) = some (.store s.target image) := by
  cases l with
  | otaBegin _ _ | otaWrite _ => exact .inr ⟨_, rfl⟩
  | setBootPartition ok =>
      cases ok with
      | true => exact absurd rfl hl
      | false => exact .inl rfl
  | stateOf _ | bootPartition _ | nextUpdatePartition _ _ _ | recv _ | lastInvalid _
  | ticks _ _ _ _ | sendAck | otaEnd _ => exact .inl rfl

/-- Until the boot partition is set the device boots what it booted before. -/
theorem Session.kept [DecidableEq κ] (h : Session Good s)
    (settled : s.device.boot = s.device.running)
    (hstep : OtaRetransmit.step p s.task.session l = some session)
    (hl : l ≠ .setBootPartition true) {device : Device κ (List UInt8)}
    (hd : device = (promisedOp s (.task (.session l) flash)).elim s.device s.device.apply) :
    device.boot = s.device.boot ∧ device.running = s.device.running ∧
      device.bootImage = s.device.bootImage := by
  obtain rfl := hd
  rcases promisedOp_of_ne_setBoot s flash hl with hop | ⟨image, hop⟩
  · rw [hop]
    exact ⟨rfl, rfl, rfl⟩
  · have hstore := h.permitted settled flash hstep hop
    rw [hop]
    exact ⟨rfl, rfl, bootImage_apply_store hstore⟩

end Sessions

/-! ### Before and after the installation -/

/-- The task is behind a session that has returned. -/
def past : OtaServerTask.Pc → Bool
  | .sendAck | .sendVerdict | .closeSession | .cleanup | .reboot | .restarted => true
  | .setup | .accept | .session => false

def answering : OtaServerTask.Pc → Bool
  | .sendAck | .sendVerdict | .closeSession => true
  | _ => false

/-- No session has returned 0 since the start: the device boots what it runs. -/
structure Untouched (Good : List UInt8 → Prop) (s : State κ) : Prop where
  rets : (0 : Int) ∉ s.task.rets
  settled : s.device.boot = s.device.running
  refused : answering s.task.pc = true → s.task.otaRet ≠ 0
  session : s.task.pc = .session → Session Good s

/-- A session has returned 0, and there will be no other one before the restart. -/
structure Installed (s : State κ) : Prop where
  past : past s.task.pc = true
  accepted : answering s.task.pc = true → s.task.otaRet = 0
  latest : s.streams.getLast? = some s.device.bootImage

structure Inv (Good : List UInt8 → Prop) (first : List UInt8) (s : State κ) : Prop where
  consistent : Consistent s.task.session
  origin : s.device.bootImage = first ∨ s.device.bootImage ∈ s.streams
  phase : Untouched Good s ∨ Installed s

section Phases
variable {Good : List UInt8 → Prop} {first : List UInt8} {p : Platform} {s t : State κ}

theorem inv_start (device : Device κ (List UInt8)) (hd : device.boot = device.running) :
    Inv Good device.bootImage (start device) := by
  refine ⟨consistent_start _, .inl rfl, .inl ⟨?_, hd, ?_, ?_⟩⟩
  · simp [start, OtaServerTask.start]
  · simp [start, OtaServerTask.start, answering]
  · simp [start, OtaServerTask.start]

theorem Inv.installed (h : Inv Good first s) (hret : (0 : Int) ∈ s.task.rets) :
    s.streams.getLast? = some s.device.bootImage := by
  rcases h.phase with huntouched | hinstalled
  · exact absurd hret huntouched.rets
  · exact hinstalled.latest

/-- Only a session of an untouched device runs. -/
theorem Inv.untouched (h : Inv Good first s) (hpc : s.task.pc = .session) : Untouched Good s := by
  rcases h.phase with huntouched | hinstalled
  · exact huntouched
  · exact absurd hinstalled.past (by simp [hpc, past])

/-- The task around the sessions. -/
theorem Untouched.task_step (h : Untouched Good s) {l : OtaServerTask.Label}
    (hl : ∀ sl, l ≠ .session sl) {task : OtaServerTask.State}
    (hstep : OtaServerTask.step p s.task l = some task) :
    Untouched Good { s with task := task } := by
  have ⟨rets, settled, refused, _⟩ := h
  cases l
  case session sl => exact absurd rfl (hl sl)
  all_goals
    simp only [OtaServerTask.step, Option.ite_none_right_eq_some, Option.some.injEq] at hstep
    obtain ⟨hpc, rfl⟩ := hstep
  case setup socket bindErr listenErr =>
    refine ⟨rets, settled, ?_, ?_⟩
    · simp only [OtaServerTask.loopTest]
      split <;> simp [answering]
    · simp only [OtaServerTask.loopTest]
      split <;> simp
  case accept sock rxBuffer =>
    refine ⟨rets, settled, by simp [answering], fun _ => ⟨?_, ?_, ?_, ?_, ?_, ?_⟩⟩ <;>
      simp [OtaRetransmit.start, chosen, Running]
  case sendAck | sendVerdict =>
    exact ⟨rets, settled, fun _ => refused (by simp [hpc, answering]), by simp⟩
  case closeSession =>
    have hret : s.task.otaRet ≠ 0 := refused (by simp [hpc, answering])
    refine ⟨rets, settled, ?_, ?_⟩
    · simp only [if_pos hret, OtaServerTask.loopTest]
      split <;> simp [answering]
    · simp only [if_pos hret, OtaServerTask.loopTest]
      split <;> simp
  case cleanup | reboot => exact ⟨rets, settled, by simp [answering], by simp⟩

theorem Installed.task_step (h : Installed s) {l : OtaServerTask.Label}
    {task : OtaServerTask.State} (hstep : OtaServerTask.step p s.task l = some task) :
    Installed { s with task := task } := by
  have ⟨hpast, accepted, latest⟩ := h
  cases l
  case session sl =>
    obtain ⟨hpc, _⟩ := OtaServerTask.step_session hstep
    simp [hpc, UpdateSafety.past] at hpast
  all_goals
    simp only [OtaServerTask.step, Option.ite_none_right_eq_some, Option.some.injEq] at hstep
    obtain ⟨hpc, rfl⟩ := hstep
  case setup | accept => simp [hpc, UpdateSafety.past] at hpast
  case sendAck | sendVerdict =>
    exact ⟨rfl, fun _ => accepted (by simp [hpc, answering]), latest⟩
  case closeSession =>
    have hret : s.task.otaRet = 0 := accepted (by simp [hpc, answering])
    simp only [hret]
    exact ⟨rfl, by simp [answering], latest⟩
  case cleanup | reboot => exact ⟨rfl, by simp [answering], latest⟩

theorem mem_streamsAfter {image : List UInt8} (h : image = first ∨ image ∈ s.streams)
    (l : Label κ) : image = first ∨ image ∈ streamsAfter s l := by
  refine h.imp_right fun hmem => ?_
  unfold streamsAfter
  split
  · exact List.mem_append_left _ hmem
  · exact hmem

variable {l : OtaRetransmit.Label} {flash : Flash κ} {session : OtaRetransmit.State}

theorem targetAfter_session (hl : ∀ a b, l ≠ .nextUpdatePartition true a b) :
    targetAfter s (.task (.session l) flash) = s.target := by
  cases l with
  | nextUpdatePartition found a b =>
      cases found with
      | true => exact absurd rfl (hl a b)
      | false => rfl
  | _ => rfl

variable [DecidableEq κ]

theorem Session.step_running (h : Session Good s) (hc : Consistent s.task.session)
    (contract : FlashContract Good s (.task (.session l) flash))
    (hstep : OtaRetransmit.step p s.task.session l = some session)
    (hsession : t.task.session = session) (hrun : Running session)
    (hdevice : t.device = (promisedOp s (.task (.session l) flash)).elim s.device s.device.apply)
    (hrunning : t.device.running = s.device.running)
    (htarget : t.target = targetAfter s (.task (.session l) flash))
    (hstreams : t.streams = streamsAfter s (.task (.session l) flash)) : Session Good t := by
  have hending := ending_of_step hstep
  have hreceived := received_of_step hstep
  have hpc := (OtaRetransmit.step_eq_some.mp hstep).1.1
  have hfresh : chosen session.pc = false → .otaBegin true ∉ session.calls := by
    intro hnot hbegin
    have hbefore : chosen s.task.session.pc = false := by
      by_contra hchosen
      rw [Bool.not_eq_false] at hchosen
      rw [chosen_kept hstep hchosen hrun] at hnot
      exact Bool.noConfusion hnot
    have hl : l.pc ≠ .otaBegin ∧ l.pc ≠ .otaWrite := by
      rw [← hpc]
      constructor <;> (intro heq; simp [heq, chosen] at hbefore)
    exact h.fresh hbefore ((handle_of_step hstep hl).2.mp hbegin)
  subst hsession
  refine ⟨hrun, ?_, hfresh, ?_, ?_, ?_⟩
  · intro hchosen
    rw [hrunning, htarget]
    by_cases hl : ∃ a b, l = .nextUpdatePartition true a b
    · obtain ⟨a, b, rfl⟩ := hl
      exact contract.answers
    · rw [targetAfter_session fun a b hab => hl ⟨a, b, hab⟩]
      exact h.apart ((chosen_of_step hstep hchosen).resolve_right hl)
  · intro hbegin
    rw [htarget, hdevice, targetAfter_session]
    · exact h.flashed_of_step hc hstep hrun hbegin
    · rintro a b rfl
      -- the query comes before the handle
      have hno : .otaBegin true ∉ s.task.session.calls := h.fresh (by rw [hpc]; rfl)
      exact hno ((handle_of_step hstep (by simp [Label.pc])).2.mp hbegin)
  · rw [hstreams, hreceived]
    rintro (hend | hset)
    · obtain rfl := hending.1 hend
      simp [streamsAfter, Label.received]
    · obtain rfl := hending.2 hset
      simpa [streamsAfter, Label.received] using h.streamed (.inl hpc)
  · intro hset
    obtain rfl := hending.2 hset
    obtain ⟨⟨hbegin, _⟩, hgood⟩ := contract.answers
    refine ⟨?_, ?_⟩
    · rw [hdevice, htarget]
      exact hgood
    · rw [calls_of_step hstep]
      exact List.mem_append_left _ hbegin

theorem Untouched.session_step (h : Untouched Good s) (hpc : s.task.pc = .session)
    (hc : Consistent s.task.session)
    (contract : FlashContract Good s (.task (.session l) flash))
    (hstep : OtaRetransmit.step p s.task.session l = some session)
    (hl : l ≠ .setBootPartition true) (ht : t.task = s.task.hosting session)
    (hdevice : t.device = (promisedOp s (.task (.session l) flash)).elim s.device s.device.apply)
    (htarget : t.target = targetAfter s (.task (.session l) flash))
    (hstreams : t.streams = streamsAfter s (.task (.session l) flash)) :
    Untouched Good t ∧ t.device.bootImage = s.device.bootImage := by
  have hs := h.session hpc
  obtain ⟨hboot, hrunning, himage⟩ := hs.kept h.settled hstep hl hdevice
  refine ⟨?_, himage⟩
  have hsettled : t.device.boot = t.device.running := by rw [hboot, hrunning, h.settled]
  by_cases hret : ∃ code, session.pc = .returned code
  · obtain ⟨code, hcode⟩ := hret
    have hne : code ≠ 0 := by
      rintro rfl
      exact hl ((returned_zero_iff hstep).mp hcode)
    have htask : t.task = { s.task with
        pc := .sendAck, session := session, otaRet := code, rets := s.task.rets ++ [code] } := by
      rw [ht, OtaServerTask.State.hosting, hcode]
    refine ⟨?_, hsettled, ?_, ?_⟩
    · simp [htask, h.rets, hne.symm]
    · intro _
      simpa [htask] using hne
    · simp [htask]
  · have hrun : Running session := fun code hcode => hret ⟨code, hcode⟩
    have htask : t.task = { s.task with session := session } := by
      rw [ht]
      cases hpc : session.pc with
      | returned code => exact absurd hpc (hrun code)
      | _ => simp only [OtaServerTask.State.hosting, hpc]
    refine ⟨by rw [htask]; exact h.rets, hsettled, by simp [htask, hpc, answering], fun _ => ?_⟩
    exact hs.step_running hc contract hstep (by rw [htask]) hrun hdevice hrunning htarget hstreams

/-- The boot partition is set to the complete stream of the client. -/
theorem Session.installed (h : Session Good s) (hc : Consistent s.task.session)
    (hstep : OtaRetransmit.step p s.task.session (.setBootPartition true) = some session)
    (ht : t.task = s.task.hosting session)
    (hdevice : t.device = s.device.apply (.setBoot s.target)) (hstreams : t.streams = s.streams) :
    Installed t := by
  have hpc := (OtaRetransmit.step_eq_some.mp hstep).1.1
  have hreturned : session.pc = .returned 0 := (returned_zero_iff hstep).mpr rfl
  have live := hc.live h.running
  have hcomplete : s.device.content s.target = received s.task.session.calls := by
    rw [h.flashed (h.verified hpc).2, live.pending, live.ended hpc]
    simp
  have htask : t.task = { s.task with
      pc := .sendAck, session := session, otaRet := 0, rets := s.task.rets ++ [0] } := by
    rw [ht, OtaServerTask.State.hosting, hreturned]
  refine ⟨by rw [htask]; rfl, fun _ => by rw [htask], ?_⟩
  rw [hstreams, hdevice, h.streamed (.inr hpc), ← hcomplete]
  rfl

theorem inv_session (h : Inv Good first s)
    (contract : FlashContract Good s (.task (.session l) flash))
    (hstep : step p s (.task (.session l) flash) = some t) : Inv Good first t := by
  obtain ⟨task, htask, heq⟩ := step_eq_some.mp hstep
  obtain ⟨hpc, session, hsession, rfl⟩ := OtaServerTask.step_session htask
  have ht : t.task = s.task.hosting session := by rw [← heq]
  have hdevice : t.device =
      (promisedOp s (.task (.session l) flash)).elim s.device s.device.apply := by
    rw [← contract.effect]
    exact device_of_step hstep
  have htarget : t.target = targetAfter s (.task (.session l) flash) := by rw [← heq]
  have hstreams : t.streams = streamsAfter s (.task (.session l) flash) := by rw [← heq]
  have huntouched := h.untouched hpc
  have hconsistent : Consistent t.task.session := by
    rw [ht, OtaServerTask.hosting_session]
    exact consistent_session h.consistent contract hsession
  by_cases hl : l = .setBootPartition true
  · subst hl
    have hinstalled :=
      (huntouched.session hpc).installed h.consistent hsession ht hdevice hstreams
    exact ⟨hconsistent, .inr (List.mem_of_getLast? hinstalled.latest), .inr hinstalled⟩
  · obtain ⟨hphase, himage⟩ := huntouched.session_step hpc h.consistent contract hsession hl ht
      hdevice htarget hstreams
    refine ⟨hconsistent, ?_, .inl hphase⟩
    rw [himage, hstreams]
    exact mem_streamsAfter h.origin _

theorem inv_step (p : Platform) (s : State κ) (l : Label κ) (t : State κ)
    (h : Inv Good first s) (contract : FlashContract Good s l) (hstep : step p s l = some t) :
    Inv Good first t := by
  cases l with
  | boot op =>
      obtain rfl : op = some .restart := contract.effect
      obtain rfl := Option.some.inj hstep
      refine ⟨consistent_start _, h.origin, .inl ⟨?_, rfl, ?_, ?_⟩⟩ <;>
        simp [OtaServerTask.start, answering]
  | task l flash =>
      by_cases hl : ∃ sl, l = .session sl
      · obtain ⟨sl, rfl⟩ := hl
        exact inv_session h contract hstep
      · have hne : ∀ sl, l ≠ .session sl := fun sl hsl => hl ⟨sl, hsl⟩
        obtain ⟨task, htask, rfl⟩ := step_eq_some.mp hstep
        have hsame : ({ task := task
                        device := (Label.task l flash).op.elim s.device s.device.apply
                        target := targetAfter s (.task l flash)
                        streams := streamsAfter s (.task l flash) } : State κ) =
            { s with task := task } := by
          rw [contract.effect]
          cases l with
          | session sl => exact absurd rfl (hne sl)
          | setup _ _ _ | accept _ _ | sendAck | sendVerdict | closeSession | cleanup | reboot =>
              rfl
        rw [hsame]
        refine ⟨?_, h.origin, h.phase.imp (fun hu => hu.task_step hne htask)
          fun hi => hi.task_step htask⟩
        by_cases haccept : ∃ sock rxBuffer, l = .accept sock rxBuffer
        · obtain ⟨sock, rxBuffer, rfl⟩ := haccept
          simp only [taskAfter, OtaServerTask.step, Option.ite_none_right_eq_some,
            Option.some.injEq] at htask
          obtain ⟨_, rfl⟩ := htask
          exact consistent_start rxBuffer
        · have hkept := OtaServerTask.session_of_step htask hne fun sock rxBuffer heq =>
            haccept ⟨sock, rxBuffer, heq⟩
          change Consistent task.session
          rw [hkept]
          exact h.consistent

theorem permitted_of_inv (s : State κ) (l : Label κ) (t : State κ) (h : Inv Good first s)
    (contract : FlashContract Good s l) (hstep : step p s l = some t) :
    SeenAs State.device (fun _ l => l.op) (Permitted Good) s l := by
  intro o (ho : o ∈ l.op)
  rw [contract.effect] at ho
  cases l with
  | boot _ =>
      obtain rfl := Option.some.inj ho
      trivial
  | task l flash =>
      cases l with
      | session sl =>
          obtain ⟨task, htask, _⟩ := step_eq_some.mp hstep
          obtain ⟨hpc, session, hsession, _⟩ := OtaServerTask.step_session htask
          have huntouched := h.untouched hpc
          exact (huntouched.session hpc).permitted huntouched.settled flash hsession ho
      | setup _ _ _ | accept _ _ | sendAck | sendVerdict | closeSession | cleanup | reboot =>
          exact absurd ho (Option.not_mem_none o)

end Phases

/-- Over every sequence of sessions, restarts and power failures the device has a good image to
boot and to run, the slots of both are never written, and what it boots is its first image or the
complete stream of a client that has closed its connection. -/
theorem update_safe [DecidableEq κ] {Good : List UInt8 → Prop} (p : Platform)
    (device : Device κ (List UInt8)) (settled : device.boot = device.running)
    (hgood : Good device.bootImage) (ls : List (Label κ))
    (contract : EachStep (step p) (FlashContract Good) (start device) ls) :
    Always (step p) (Safe Good device.bootImage) (start device) ls ∧
      EachStep (step p) (SeenAs State.device (fun _ l => l.op) (Permitted Good)) (start device)
        ls := by
  have hinv : Inv Good device.bootImage (start device) := inv_start device settled
  have hperm := eachStep_of_eachStep permitted_of_inv (inv_step p) hinv contract
  have hbootable : Bootable Good device := by
    refine ⟨hgood, ?_⟩
    rw [Device.runningImage, ← settled]
    exact hgood
  have hboot := always_bootable (fun _ _ _ => device_of_step) (s := start device) hbootable hperm
  have hhistory : Always (step p) (Inv Good device.bootImage) (start device) ls :=
    always_of_eachStep (fun _ h => h) (inv_step p) hinv contract
  refine ⟨?_, hperm⟩
  exact (hboot.and hhistory).mono fun s h => ⟨h.1, h.2.origin, h.2.installed⟩

/-- An image begins with the magic byte. -/
def Magic (image : List UInt8) : Prop := image.head? = some 0xe9

instance : DecidablePred Magic := fun _ => inferInstanceAs (Decidable (_ = _))

/-- Two slots, of which the first one runs. -/
def factoryDevice : Device Bool (List UInt8) where
  running := false
  boot := false
  content := fun _ => [0xe9]

/-- A flash whose calls do what is promised of them. -/
def obedient [DecidableEq κ] (p : Platform) : State κ → List (Label κ) → List (Label κ)
  | _, [] => []
  | s, .task l flash :: ls =>
      let label := .task l { flash with op := promisedOp s (.task l flash) }
      label :: (step p s label).elim [] fun t => obedient p t ls
  | s, .boot _ :: ls =>
      .boot (some .restart) :: (step p s (.boot (some .restart))).elim [] fun t => obedient p t ls

def onSecondSlot (l : OtaServerTask.Label) : Label Bool := .task l ⟨true, none, []⟩

def connected (session : List OtaRetransmit.Label) : List OtaServerTask.Label :=
  .setup 54 0 0 :: .accept 55 (fun _ => 0) :: session.map .session

def closing : List OtaServerTask.Label :=
  [.sendAck, .sendVerdict, .closeSession, .cleanup, .reboot]

/-- The power fails while a chunk is written; the client comes again, and the device restarts. -/
def powerFailureRun : List (Label Bool) :=
  obedient espIdf (start factoryDevice)
    ((connected (updateSession.take 11)).map onSecondSlot ++ .boot none ::
      (connected updateSession ++ closing).map onSecondSlot ++ [.boot none])

theorem update_safe_power_failure :
    ∃ t, run (step espIdf) (start factoryDevice) powerFailureRun = some t ∧
      t.device.running = true ∧ t.device.boot = true ∧ t.streams.length = 1 ∧
      Safe Magic [0xe9] t := by
  have hrun : (run (step espIdf) (start factoryDevice) powerFailureRun).map
      (fun t => (t.device.running, t.device.boot, t.streams.length)) = some (true, true, 1) := by
    decide +kernel
  obtain ⟨t, ht, hend⟩ := Option.map_eq_some_iff.mp hrun
  obtain ⟨hrunning, hboot⟩ := Prod.mk.inj hend
  obtain ⟨hboot, hstreams⟩ := Prod.mk.inj hboot
  have hsafe := (@update_safe Bool _ Magic espIdf factoryDevice rfl rfl powerFailureRun
    (by decide +kernel)).1
  exact ⟨t, ht, hrunning, hboot, hstreams, hsafe.last ht⟩

end InfoGlobe.UpdateSafety
