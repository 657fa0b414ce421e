import InfoGlobe.Library.FlatMemory
import InfoGlobe.Library.MachineWords
import InfoGlobe.Library.StepSystem
import InfoGlobe.Firmware.Animations
import InfoGlobe.Firmware.TcpHelpers

/-!
The update session: `do_retransmit` of the OTA server. Bytes gather in `rx_buffer` until the image
header is complete; after the version check the handle is opened, and from the next chunk on
everything in the buffer is written to flash. Each label carries the result of one outside call.
-/

namespace InfoGlobe.OtaRetransmit
open StepSystem FlatMemory MachineInt Animations

def buffSize : Nat := 8192

/-- What comes from the headers of the platform: the sizes of the image header structures, where
the version stands in the application description, and the tick macros. -/
structure Platform extends TickMacros where
  imageHeaderSize : Nat
  segmentHeaderSize : Nat
  appDescSize : Nat
  versionOffset : Nat
  versionSize : Nat

def Platform.headerSize (p : Platform) : Nat :=
  p.imageHeaderSize + p.segmentHeaderSize + p.appDescSize

/-- The sizes of the platform the firmware is built for, with one tick per millisecond. -/
def espIdf : Platform where
  pdMsToTicks := UInt32.ofNat
  pdTicksToMs := id
  imageHeaderSize := 24
  segmentHeaderSize := 8
  appDescSize := 256
  versionOffset := 16
  versionSize := 32

inductive Pc
  | getState | getBootPartition | getNextUpdatePartition | recv | checkVersion | otaBegin
  | otaWrite | showProgress | sendAck | otaEnd | setBootPartition
  | returned (code : Int)
  deriving DecidableEq

/-- The calls of a session that have an effect outside of it. -/
inductive Call
  | markAppValid
  | markAppInvalid
  | recv (offset capacity : Int) (r : RecvResult)
  | otaBegin (ok : Bool)
  | otaWrite (bytes : List UInt8) (ok : Bool)
  | otaAbort
  | otaEnd (ok : Bool)
  | setBootPartition (ok : Bool)
  | sendAck
  | free
  deriving DecidableEq

/-- What the version check learns about the last invalid partition: whether there is one, the
version in its description if that can be read, and what the stack holds in its place. -/
structure LastInvalid where
  present : Bool
  description : Option (List UInt8)
  stack : List UInt8
  deriving DecidableEq

structure State where
  pc : Pc
  rxBuffer : Nat → UInt8
  dataRead : Int
  imageHeaderWasChecked : Bool
  binaryFileLength : Int
  otaStartTime : UInt32
  otaStatusPrintTime : UInt32
  frames : List MsgBuffer
  calls : List Call

inductive Label
  | stateOf (pendingVerify : Bool)
  | bootPartition (found : Bool)
  | nextUpdatePartition (found : Bool) (startTime printTime : UInt32)
  | recv (r : RecvResult)
  | lastInvalid (app : LastInvalid)
  | otaBegin (ok : Bool) (now : UInt32)
  | otaWrite (ok : Bool)
  /-- The four readings of the tick counter around the progress display. -/
  | ticks (a b c d : UInt32)
  | sendAck
  | otaEnd (ok : Bool)
  | setBootPartition (ok : Bool)
  deriving DecidableEq

/-- A session starts with a freshly allocated buffer of any content. -/
def start (rxBuffer : Nat → UInt8) : State where
  pc := .getState
  rxBuffer := rxBuffer
  dataRead := 0
  imageHeaderWasChecked := false
  binaryFileLength := 0
  otaStartTime := 0
  otaStatusPrintTime := 0
  frames := []
  calls := []

def State.log (s : State) (c : Call) : State := { s with calls := s.calls ++ [c] }

/-- Every return path frees `rx_buffer` first. -/
def State.freeAndReturn (s : State) (code : Int) : State :=
  { s.log .free with pc := .returned code }

def diagnostic : Bool := true

def LastInvalid.version (app : LastInvalid) : List UInt8 := app.description.getD app.stack

/-- The version field of the description that is copied out of the buffer. -/
def newVersion (p : Platform) (s : State) : List UInt8 :=
  readAt s.rxBuffer (p.imageHeaderSize + p.segmentHeaderSize + p.versionOffset) p.versionSize

/-- The new version is the one of the last invalid partition. -/
def LastInvalid.rejects (app : LastInvalid) (version : List UInt8) : Bool :=
  app.present && app.version == version

/-! ### What each call does to the session -/

def afterRecv (p : Platform) (s : State) (r : RecvResult) : State :=
  let s := s.log (.recv s.dataRead (buffSize - s.dataRead) r)
  match r with
  | .error => s.freeAndReturn (-3)
  | .closed => { s with pc := .otaEnd }
  | .data bytes =>
      let dataRead := s.dataRead + bytes.length
      { s with
        pc := if s.imageHeaderWasChecked then .otaWrite
          else if p.headerSize < dataRead then .checkVersion else .sendAck
        rxBuffer := writeAt s.rxBuffer s.dataRead.toNat bytes
        dataRead := dataRead }

def afterWrite (s : State) (ok : Bool) : State :=
  let s := s.log (.otaWrite (readAt s.rxBuffer 0 s.dataRead.toNat) ok)
  if ok then
    { s with
      pc := .showProgress
      binaryFileLength := int32 (s.binaryFileLength + s.dataRead)
      dataRead := 0 }
  else (s.log .otaAbort).freeAndReturn (-7)

/-- The progress display, with the readings of the tick counter in the order they are taken. -/
def afterTicks (p : Platform) (s : State) (a b c d : UInt32) : State :=
  if a - s.otaStartTime > p.pdMsToTicks 8000 ∧ b - s.otaStatusPrintTime > p.pdMsToTicks 1000 then
    { s with
      pc := .sendAck
      otaStatusPrintTime := c
      frames := s.frames ++ [otaProgressFrame (p.pdTicksToMs (d - s.otaStartTime))] }
  else { s with pc := .sendAck }

def effect (p : Platform) (s : State) : Label → State
  | .stateOf pendingVerify =>
      let s := if pendingVerify then s.log (if diagnostic then .markAppValid else .markAppInvalid)
        else s
      { s with pc := .getBootPartition }
  | .bootPartition found =>
      if found then { s with pc := .getNextUpdatePartition } else s.freeAndReturn (-1)
  | .nextUpdatePartition found startTime printTime =>
      if found then
        { s with pc := .recv, otaStartTime := startTime, otaStatusPrintTime := printTime }
      else s.freeAndReturn (-2)
  | .recv r => afterRecv p s r
  | .lastInvalid app =>
      if app.rejects (newVersion p s) then s.freeAndReturn (-5)
      else { s with pc := .otaBegin, imageHeaderWasChecked := true }
  | .otaBegin ok now =>
      let s := s.log (.otaBegin ok)
      if ok then
        { s with pc := .sendAck, otaStartTime := now, frames := s.frames ++ [otaStartFrame] }
      else (s.log .otaAbort).freeAndReturn (-6)
  | .otaWrite ok => afterWrite s ok
  | .ticks a b c d => afterTicks p s a b c d
  | .sendAck => { s.log .sendAck with pc := .recv }
  | .otaEnd ok =>
      let s := s.log (.otaEnd ok)
      if ok then { s with pc := .setBootPartition } else s.freeAndReturn (-8)
  | .setBootPartition ok =>
      let s := s.log (.setBootPartition ok)
      if ok then s.freeAndReturn 0 else s.freeAndReturn (-9)

/-- The place of the call whose result a label carries. -/
def Label.pc : Label → Pc
  | .stateOf _ => .getState
  | .bootPartition _ => .getBootPartition
  | .nextUpdatePartition _ _ _ => .getNextUpdatePartition
  | .recv _ => .recv
  | .lastInvalid _ => .checkVersion
  | .otaBegin _ _ => .otaBegin
  | .otaWrite _ => .otaWrite
  | .ticks _ _ _ _ => .showProgress
  | .sendAck => .sendAck
  | .otaEnd _ => .otaEnd
  | .setBootPartition _ => .setBootPartition

/-- `recv` is asked for the rest of the buffer; every other result can always come. -/
def Label.possible (s : State) : Label → Bool
  | .recv r => r.within (buffSize - s.dataRead)
  | _ => true

def step (p : Platform) (s : State) (l : Label) : Option State :=
  if s.pc = l.pc ∧ l.possible s = true then some (effect p s l) else none

theorem step_eq_some {p : Platform} {s t : State} {l : Label} :
    step p s l = some t ↔ (s.pc = l.pc ∧ l.possible s = true) ∧ effect p s l = t := by
  unfold step
  simp only [Option.ite_none_right_eq_some, Option.some.injEq]

/-! ### The bytes that came in and the bytes that went to flash -/

def Call.received : Call → List UInt8
  | .recv _ _ (.data bytes) => bytes
  | _ => []

def Call.written : Call → List UInt8
  | .otaWrite bytes _ => bytes
  | _ => []

def received (calls : List Call) : List UInt8 := calls.flatMap Call.received
def written (calls : List Call) : List UInt8 := calls.flatMap Call.written

@[simp] theorem log_pc (s : State) (c : Call) : (s.log c).pc = s.pc := rfl
@[simp] theorem log_rxBuffer (s : State) (c : Call) : (s.log c).rxBuffer = s.rxBuffer := rfl
@[simp] theorem log_dataRead (s : State) (c : Call) : (s.log c).dataRead = s.dataRead := rfl

@[simp] theorem log_imageHeaderWasChecked (s : State) (c : Call) :
    (s.log c).imageHeaderWasChecked = s.imageHeaderWasChecked := rfl

@[simp] theorem received_log (s : State) (c : Call) :
    received (s.log c).calls = received s.calls ++ c.received := by
  simp [received, State.log]

@[simp] theorem written_log (s : State) (c : Call) :
    written (s.log c).calls = written s.calls ++ c.written := by
  simp [written, State.log]

@[simp] theorem mem_log (s : State) (c d : Call) : d ∈ (s.log c).calls ↔ d ∈ s.calls ∨ d = c := by
  simp [State.log]

def Label.received : Label → List UInt8
  | .recv (.data bytes) => bytes
  | _ => []

/-- The calls of a step, in the order they are made. -/
def Label.calls (p : Platform) (s : State) : Label → List Call
  | .stateOf pendingVerify => if pendingVerify then [.markAppValid] else []
  | .bootPartition found | .nextUpdatePartition found _ _ => if found then [] else [.free]
  | .recv r =>
      .recv s.dataRead (buffSize - s.dataRead) r :: (if r = .error then [.free] else [])
  | .lastInvalid app => if app.rejects (newVersion p s) then [.free] else []
  | .otaBegin ok _ => .otaBegin ok :: (if ok then [] else [.otaAbort, .free])
  | .otaWrite ok =>
      .otaWrite (readAt s.rxBuffer 0 s.dataRead.toNat) ok ::
        (if ok then [] else [.otaAbort, .free])
  | .ticks _ _ _ _ => []
  | .sendAck => [.sendAck]
  | .otaEnd ok => .otaEnd ok :: (if ok then [] else [.free])
  | .setBootPartition ok => [.setBootPartition ok, .free]

theorem calls_of_step {p : Platform} {s t : State} {l : Label} (h : step p s l = some t) :
    t.calls = s.calls ++ l.calls p s := by
  obtain ⟨_, rfl⟩ := step_eq_some.mp h
  cases l with
  | stateOf pendingVerify =>
      cases pendingVerify <;> simp [effect, diagnostic, Label.calls, State.log]
  | bootPartition ok | nextUpdatePartition ok | otaBegin ok | otaEnd ok | setBootPartition ok =>
      cases ok <;> simp [effect, Label.calls, State.freeAndReturn, State.log]
  | otaWrite ok =>
      cases ok <;> simp [effect, afterWrite, Label.calls, State.freeAndReturn, State.log]
  | sendAck => simp [effect, Label.calls, State.log]
  | ticks a b c d =>
      simp only [effect, afterTicks]
      split <;> simp [Label.calls]
  | lastInvalid app =>
      simp only [effect, Label.calls]
      split <;> simp [State.freeAndReturn, State.log]
  | recv r =>
      cases r <;> simp [effect, afterRecv, Label.calls, State.freeAndReturn, State.log]

theorem received_calls (p : Platform) (s : State) (l : Label) :
    OtaRetransmit.received (l.calls p s) = l.received := by
  cases l with
  | stateOf ok | bootPartition ok | nextUpdatePartition ok | otaBegin ok | otaWrite ok | otaEnd ok
  | setBootPartition ok =>
      cases ok <;> rfl
  | recv r => cases r <;> simp [OtaRetransmit.received, Label.calls, Label.received, Call.received]
  | lastInvalid app =>
      simp only [Label.calls]
      split <;> rfl
  | ticks _ _ _ _ | sendAck => rfl

theorem received_of_step {p : Platform} {s t : State} {l : Label} (h : step p s l = some t) :
    received t.calls = received s.calls ++ l.received := by
  rw [calls_of_step h, received, List.flatMap_append]
  exact congrArg (received s.calls ++ ·) (received_calls p s l)

/-! ### The return code -/

/-- The call fails, and the session returns a code for it. -/
def Fails (p : Platform) (s : State) : Label → Prop
  | .bootPartition found | .nextUpdatePartition found _ _ => found = false
  | .recv r => r = .error
  | .lastInvalid app => app.rejects (newVersion p s) = true
  | .otaBegin ok _ | .otaWrite ok | .otaEnd ok | .setBootPartition ok => ok = false
  | .stateOf _ | .ticks _ _ _ _ | .sendAck => False

instance (p : Platform) (s : State) (l : Label) : Decidable (Fails p s l) := by
  unfold Fails
  split <;> infer_instance

theorem not_returned_of_step {p : Platform} {s t : State} {l : Label} (h : step p s l = some t)
    (code : Int) : s.pc ≠ .returned code := by
  intro hpc
  obtain ⟨⟨hl, _⟩, _⟩ := step_eq_some.mp h
  rw [hpc] at hl
  cases l <;> exact Pc.noConfusion hl

/-- A failing call makes the session return a code other than 0, and no other call does. -/
theorem returned_of_step {p : Platform} {s t : State} {l : Label} (h : step p s l = some t) :
    (Fails p s l → ∃ code, code ≠ 0 ∧ t.pc = .returned code) ∧
      (¬Fails p s l → ∀ code, t.pc = .returned code → code = 0) := by
  obtain ⟨_, rfl⟩ := step_eq_some.mp h
  cases l with
  | stateOf _ | sendAck => simp [Fails, effect]
  | bootPartition ok | nextUpdatePartition ok | otaBegin ok | otaEnd ok =>
      cases ok <;> simp [Fails, effect, State.freeAndReturn]
  | otaWrite ok => cases ok <;> simp [Fails, effect, afterWrite, State.freeAndReturn]
  | setBootPartition ok =>
      cases ok
      · simp [Fails, effect, State.freeAndReturn]
      · refine ⟨fun hf => absurd hf (by simp [Fails]), fun _ code hcode => ?_⟩
        exact (Pc.returned.inj hcode).symm
  | ticks a b c d =>
      refine ⟨False.elim, fun _ code hcode => ?_⟩
      simp only [effect, afterTicks] at hcode
      split at hcode <;> exact absurd hcode (by simp)
  | lastInvalid app =>
      simp only [Fails, effect]
      by_cases hrejects : app.rejects (newVersion p s) = true
      · rw [if_pos hrejects]
        exact ⟨fun _ => ⟨-5, by decide, rfl⟩, fun hf => absurd hrejects hf⟩
      · rw [if_neg hrejects]
        exact ⟨fun hf => absurd hf hrejects, fun _ code hcode => absurd hcode (by simp)⟩
  | recv r =>
      cases r with
      | error => exact ⟨fun _ => ⟨-3, by decide, rfl⟩, fun hf => absurd rfl hf⟩
      | closed => simp [Fails, effect, afterRecv]
      | data bytes =>
          refine ⟨fun hf => absurd hf (by simp [Fails]), fun _ code hcode => ?_⟩
          simp only [effect, afterRecv] at hcode
          split at hcode
          · exact absurd hcode (by simp)
          · split at hcode <;> exact absurd hcode (by simp)

/-! ### The rhythm of a session -/

/-- The session waits for the next chunk, or is on its way to the loop. -/
def Pc.waiting : Pc → Bool
  | .getState | .getBootPartition | .getNextUpdatePartition | .recv => true
  | _ => false

/-- The session deals with a chunk that it has not acknowledged yet. -/
def Pc.working : Pc → Bool
  | .checkVersion | .otaBegin | .otaWrite | .showProgress | .sendAck => true
  | _ => false

theorem waiting_of_step {p : Platform} {s t : State} {l : Label} (h : step p s l = some t)
    (hs : s.pc.waiting = true) (hf : ¬Fails p s l) (hrecv : ∀ r, l ≠ .recv r) :
    t.pc.waiting = true := by
  obtain ⟨⟨hpc, _⟩, rfl⟩ := step_eq_some.mp h
  rw [hpc] at hs
  cases l with
  | stateOf _ => rfl
  | bootPartition ok | nextUpdatePartition ok =>
      cases ok
      · exact absurd rfl hf
      · rfl
  | recv r => exact absurd rfl (hrecv r)
  | lastInvalid _ | otaBegin _ _ | otaWrite _ | ticks _ _ _ _ | sendAck | otaEnd _
  | setBootPartition _ => simp [Label.pc, Pc.waiting] at hs

theorem working_of_recv {p : Platform} {s t : State} {bytes : List UInt8}
    (h : step p s (.recv (.data bytes)) = some t) : t.pc.working = true := by
  obtain ⟨_, rfl⟩ := step_eq_some.mp h
  simp only [effect, afterRecv]
  split
  · rfl
  · split <;> rfl

theorem working_of_step {p : Platform} {s t : State} {l : Label} (h : step p s l = some t)
    (hs : s.pc.working = true) (hf : ¬Fails p s l) (hack : l ≠ .sendAck) :
    t.pc.working = true := by
  obtain ⟨⟨hpc, _⟩, rfl⟩ := step_eq_some.mp h
  rw [hpc] at hs
  cases l with
  | lastInvalid app =>
      have haccepted : app.rejects (newVersion p s) = false := by simpa [Fails] using hf
      simp [effect, haccepted, Pc.working]
  | otaBegin ok | otaWrite ok =>
      cases ok
      · exact absurd rfl hf
      · rfl
  | ticks a b c d =>
      simp only [effect, afterTicks]
      split <;> rfl
  | sendAck => exact absurd rfl hack
  | stateOf _ | bootPartition _ | nextUpdatePartition _ _ _ | recv _ | otaEnd _
  | setBootPartition _ => simp [Label.pc, Pc.working] at hs

end InfoGlobe.OtaRetransmit
