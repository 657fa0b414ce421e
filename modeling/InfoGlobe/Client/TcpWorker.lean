import Mathlib.Data.List.Infix
import InfoGlobe.Library.StepSystem

/-!
The workers of the desktop client. Those for texts and buttons send one packet each. The update
worker sends the file chunk by chunk, wants to see "ACK" in one response per chunk, and waits for
one more response at the end. Everything that raises inside its `try` ends up behind it, where the
last status is always 0.
-/

namespace InfoGlobe.TcpWorker

/-- `str.encode()`. -/
def encode (s : String) : List UInt8 := s.toList.flatMap String.utf8EncodeChar

/-- `TcpTextWorker.perform_task`: `len` counts characters, and `bytes` raises an exception for a
number that is no byte, in which case nothing is sent. -/
def textPacket (message : String) (blinkyEnable : Bool) : Option (List UInt8) :=
  let blinkIdx := if blinkyEnable then message.length + 1 else 0
  let shiftIdx := message.length
  if blinkIdx < 256 ∧ shiftIdx < 256 then
    some ([0x05, 0x00] ++ encode message ++ [0x0] ++
      [UInt8.ofNat blinkIdx, UInt8.ofNat shiftIdx])
  else none

/-- `TcpButtonWorker.perform_task`. -/
def buttonPacket (button : UInt8) : List UInt8 := [0x76] ++ [button]

/-- `TcpButtonConfigWorker.perform_task`. -/
def buttonConfigPacket (button : UInt8) (command : String) : List UInt8 :=
  [0x76] ++ [button, 0x01] ++ encode command ++ [0x00]

end InfoGlobe.TcpWorker

namespace InfoGlobe.OtaWorker
open StepSystem

inductive Pc
  | openFile | read | sendall | recvChunk | recvFinal | done
  deriving DecidableEq

structure State where
  pc : Pc
  /-- What `read` has not delivered yet. -/
  binaryFile : List UInt8
  chunkSize : Nat
  binarySize : Nat
  totalTxSize : Nat
  chunk : List UInt8
  /-- The emissions of `progress_percent`, each a numerator over `binary_size`. -/
  progressPercent : List Nat
  exitStatus : List Int

inductive Label
  | openFile (found : Bool)
  | read
  /-- `send_bytes`, or an exception raised by it. -/
  | sendall (ok : Bool)
  | recv (response : List UInt8)
  | timeout
  /-- Any other exception of `recv`. -/
  | recvError
  deriving DecidableEq

def start (file : List UInt8) (chunkSize : Nat) : State where
  pc := .openFile
  binaryFile := file
  chunkSize := chunkSize
  binarySize := file.length
  totalTxSize := 0
  chunk := []
  progressPercent := []
  exitStatus := []

/-- `bytes.decode()`, which raises on anything but UTF-8. -/
def decode (response : List UInt8) : Option String := String.fromUTF8? ⟨response.toArray⟩

def containsAck (s : String) : Bool := decide ("ACK".toList <:+: s.toList)

def State.exit (s : State) (status : Int) : State :=
  { s with pc := .done, exitStatus := s.exitStatus ++ [status] }

/-- The code behind the `try`. -/
def State.behindTry (s : State) : State :=
  let unsent := if s.totalTxSize ≠ s.binarySize then [-1] else []
  { s with pc := .done, exitStatus := s.exitStatus ++ unsent ++ [0] }

def effect (s : State) : Label → State
  | .openFile found => if found then { s with pc := .read } else s.behindTry
  | .read =>
      let chunk := s.binaryFile.take s.chunkSize
      { s with
        pc := if chunk = [] then .recvFinal else .sendall
        binaryFile := s.binaryFile.drop s.chunkSize
        totalTxSize := s.totalTxSize + chunk.length
        chunk := chunk }
  | .sendall ok =>
      if ok then
        { s with pc := .recvChunk, progressPercent := s.progressPercent ++ [s.totalTxSize] }
      else s.behindTry
  | .recv response =>
      match s.pc, decode response with
      | .recvChunk, some text => if containsAck text then { s with pc := .read } else s.exit (-2)
      | _, _ => s.behindTry
  | .timeout => if s.pc = .recvChunk then s.exit (-2) else s.exit (-3)
  | .recvError => s.behindTry

def enabled (s : State) : Label → Bool
  | .openFile _ => s.pc = .openFile
  | .read => s.pc = .read
  | .sendall _ => s.pc = .sendall
  | .recv _ | .timeout | .recvError => s.pc = .recvChunk ∨ s.pc = .recvFinal

def step (s : State) (l : Label) : Option State :=
  if enabled s l = true then some (effect s l) else none

theorem step_eq_some {s t : State} {l : Label} :
    step s l = some t ↔ enabled s l = true ∧ effect s l = t := by
  unfold step
  simp only [Option.ite_none_right_eq_some, Option.some.injEq]

theorem not_done_of_step {s t : State} {l : Label} (h : step s l = some t) : s.pc ≠ .done := by
  intro hpc
  obtain ⟨henabled, _⟩ := step_eq_some.mp h
  cases l <;> simp [enabled, hpc] at henabled

/-! ### The last status -/

/-- Something raises in the `try`. -/
def Raises : Label → Prop
  | .openFile found => found = false
  | .sendall ok => ok = false
  | .recv response => decode response = none
  | .recvError => True
  | .read | .timeout => False

/-- The step ends the `try`: something raises, or the final `recv` does not time out. -/
def Leaves (s : State) (l : Label) : Prop := Raises l ∨ s.pc = .recvFinal ∧ l ≠ .timeout

theorem behindTry_last (s : State) : s.behindTry.exitStatus.getLast? = some 0 := by
  simp [State.behindTry]

theorem exit_last (s : State) (status : Int) :
    (s.exit status).exitStatus.getLast? = some status := by
  simp [State.exit]

theorem effect_of_leaves {s : State} {l : Label} (henabled : enabled s l = true)
    (hl : Leaves s l) : effect s l = s.behindTry := by
  rcases hl with hraises | ⟨hfinal, hne⟩
  · cases l with
    | openFile found | sendall ok =>
        obtain rfl := hraises
        rfl
    | recv response =>
        have hdecode : decode response = none := hraises
        cases hpc : s.pc <;> simp only [effect, hpc, hdecode]
    | recvError => rfl
    | read | timeout => exact hraises.elim
  · cases l with
    | openFile found | read | sendall ok => simp [enabled, hfinal] at henabled
    | recv response => simp only [effect, hfinal]
    | timeout => exact absurd rfl hne
    | recvError => rfl

theorem last_of_not_leaves {s : State} {l : Label} (henabled : enabled s l = true)
    (hl : ¬Leaves s l) (hdone : (effect s l).pc = .done) :
    (effect s l).exitStatus.getLast? ≠ some 0 := by
  obtain ⟨hraises, hfinal⟩ := not_or.mp hl
  cases l with
  | openFile ok | sendall ok =>
      have hok : ok = true := by simpa [Raises] using hraises
      subst hok
      exact absurd hdone (by simp [effect])
  | read =>
      simp only [effect] at hdone
      split at hdone <;> exact absurd hdone (by simp)
  | timeout =>
      simp only [effect]
      split <;> simp [exit_last]
  | recvError => exact absurd trivial hraises
  | recv response =>
      have hchunk : s.pc = .recvChunk := by
        have hpc : s.pc = .recvChunk ∨ s.pc = .recvFinal := by simpa [enabled] using henabled
        exact hpc.resolve_right fun h => hfinal ⟨h, by simp⟩
      obtain ⟨text, htext⟩ := Option.ne_none_iff_exists'.mp hraises
      simp only [effect, hchunk, htext] at hdone ⊢
      cases hack : containsAck text with
      | true => exact absurd hdone (by simp [hack])
      | false => simp [exit_last]

/-- Behind the `try` the last status is 0, and a return from inside of it leaves another one. -/
theorem last_status_of_step {s t : State} {l : Label} (h : step s l = some t) :
    (Leaves s l → t.pc = .done ∧ t.exitStatus.getLast? = some 0) ∧
      (¬Leaves s l → t.pc = .done → t.exitStatus.getLast? ≠ some 0) := by
  obtain ⟨henabled, rfl⟩ := step_eq_some.mp h
  refine ⟨fun hl => ?_, last_of_not_leaves henabled⟩
  rw [effect_of_leaves henabled hl]
  exact ⟨rfl, behindTry_last s⟩

end InfoGlobe.OtaWorker
