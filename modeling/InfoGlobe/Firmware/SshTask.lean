import InfoGlobe.Library.ResourceLedger
import InfoGlobe.Library.StepSystem
import InfoGlobe.Firmware.SshDriver
import Mathlib.Data.Finset.Basic
import Mathlib.Data.Finset.Lattice.Lemmas

/-!
One activation of `ssh_task` with the functions of `ssh_driver.c` it calls. Each label carries the
result of one outside call; a failure helper sets its bits and ends the task on the spot, and only
the path without a failure reaches `disconnect_and_cleanup`.
-/

namespace InfoGlobe.SshTask
open StepSystem ResourceLedger SshDriver

def bufferSize : Int := 4096

inductive TaskBit
  | finish | fail | cmdSuccess
  deriving DecidableEq

inductive Resource
  | libssh2 | socket (fd : Int) | session | channel | rxBuff
  deriving DecidableEq

inductive Pc
  | start | libssh2Init | inetAddr | gethostbyname | socket | connect | sessionInit | handshake
  | userauth | printCommand | execSshCommand | openSession | channelExec | malloc | channelRead
  | freeBuffer | channelClose | exitSignal | setSuccess | disconnect | logDone | setFail | setFinish
  | deleteTask | deleted | panicked
  deriving DecidableEq

/-- What the task does outside of itself. -/
inductive Call
  /-- A field of `task_parameter` is read, on the stack of the task that waits. -/
  | readParameters
  | setBits (bit : TaskBit)
  | exec (command : List UInt8)
  | event (e : Event Resource)
  deriving DecidableEq

inductive OpenResult
  | channel | eagain | failed
  deriving DecidableEq

structure State where
  pc : Pc
  command : List UInt8
  sock : Int
  /-- `none` is the null pointer. -/
  rxBuff : Option Reading
  calls : List Call

inductive Label
  | start
  | libssh2Init (rc : Int)
  | inetAddr (numeric : Bool)
  | gethostbyname (found : Bool)
  | socket (fd : Int)
  | connect (rc : Int)
  | sessionInit (ok : Bool)
  | handshake (rc : Int)
  | userauthPassword (rc : Int)
  | printCommand
  | execSshCommand
  | openSession (r : OpenResult)
  | channelExec (rc : Int)
  | malloc (block : Option (Nat → UInt8))
  | channelRead (r : ReadResult)
  | freeBuffer
  | channelClose (rc : Int)
  /-- The pointer that `libssh2_channel_get_exit_signal` leaves, 0 for NULL. -/
  | exitSignal (pointer : Nat)
  | setBits (bit : TaskBit)
  | disconnect
  | logDone
  | vTaskDelete

/-- The caller passes the address of its local record, so the null check at the top is passed. -/
def start (command : List UInt8) : State where
  pc := .start
  command := command
  sock := -1
  rxBuff := none
  calls := []

def acquired (r : Resource) : Call := .event (.acquired r)

def used (r : Resource) : Call := .event (.used r)

def released (r : Resource) : Call := .event (.released r)

def Call.events : Call → List (Event Resource)
  | .event e => [e]
  | .readParameters | .setBits _ | .exec _ => []

def ledgerOf (calls : List Call) : List (Event Resource) := calls.flatMap Call.events

def State.ledger (s : State) : List (Event Resource) := ledgerOf s.calls

/-- `libssh2_session_free` frees the channels of the session as well. -/
def sessionFree (s : State) : List Call :=
  if .channel ∈ held s.ledger then [released .channel, released .session]
  else [released .session]

def disconnectAndCleanup (s : State) : List Call :=
  [used .session] ++ sessionFree s ++ [released (.socket s.sock), released .libssh2]

/-- A turn of the loop in `read_channel`; writing through a null pointer is a panic. -/
def afterRead (s : State) (r : ReadResult) : Pc × List Call :=
  match s.rxBuff, r with
  | none, .error _ => (.setFail, [used .channel])
  | none, .data _ => (.panicked, [used .channel])
  | some reading, r =>
      match readTurn bufferSize reading r with
      | .again _ => (.channelRead, [used .channel, used .rxBuff])
      | .return _ bytecount =>
          (if bytecount < 0 then .setFail else .freeBuffer, [used .channel, used .rxBuff])

/-- Where the task goes from here, and what it does on the way. -/
def outcome (s : State) : Label → Pc × List Call
  | .start => (.libssh2Init, [.readParameters])
  | .libssh2Init rc => if rc ≠ 0 then (.setFail, []) else (.inetAddr, [acquired .libssh2])
  | .inetAddr numeric => (if numeric then .socket else .gethostbyname, [])
  | .gethostbyname found => (if found then .socket else .setFail, [])
  | .socket fd => if fd < 0 then (.setFail, []) else (.connect, [acquired (.socket fd)])
  | .connect rc => (if rc ≠ 0 then .setFail else .sessionInit, [used (.socket s.sock)])
  | .sessionInit ok => if ok then (.handshake, [acquired .session]) else (.setFail, [])
  | .handshake rc =>
      (if rc ≠ 0 then .setFail else .userauth, [used .session, used (.socket s.sock)])
  | .userauthPassword rc => (if rc ≠ 0 then .setFail else .printCommand, [used .session])
  | .printCommand => (.execSshCommand, [.readParameters])
  | .execSshCommand => (.openSession, [.readParameters])
  | .openSession .channel => (.channelExec, [used .session, acquired .channel])
  | .openSession .eagain => (.openSession, [used .session])
  | .openSession .failed => (.setFail, [used .session])
  | .channelExec rc =>
      (if rc = eagain then .channelExec else if rc ≠ 0 then .setFail else .malloc,
        [.exec s.command, used .channel])
  | .malloc none => (.channelRead, [])
  | .malloc (some _) => (.channelRead, [acquired .rxBuff])
  | .channelRead r => afterRead s r
  | .freeBuffer => (.channelClose, if s.rxBuff.isSome then [released .rxBuff] else [])
  | .channelClose rc =>
      (if rc = eagain then .channelClose else if rc ≠ 0 then .setFail else .exitSignal,
        [used .channel])
  | .exitSignal pointer =>
      if pointer = 0 ∨ pointer = 1 then (.setSuccess, [used .channel, released .channel])
      else (.setFail, [used .channel])
  | .setBits .cmdSuccess => (.disconnect, [.setBits .cmdSuccess])
  | .setBits .fail => (.setFinish, [.setBits .fail])
  | .setBits .finish => (.deleteTask, [.setBits .finish])
  | .disconnect => (.logDone, disconnectAndCleanup s)
  | .logDone => (.setFinish, [.readParameters])
  | .vTaskDelete => (.deleted, [])

def Label.pc : Label → Pc
  | .start => .start
  | .libssh2Init _ => .libssh2Init
  | .inetAddr _ => .inetAddr
  | .gethostbyname _ => .gethostbyname
  | .socket _ => .socket
  | .connect _ => .connect
  | .sessionInit _ => .sessionInit
  | .handshake _ => .handshake
  | .userauthPassword _ => .userauth
  | .printCommand => .printCommand
  | .execSshCommand => .execSshCommand
  | .openSession _ => .openSession
  | .channelExec _ => .channelExec
  | .malloc _ => .malloc
  | .channelRead _ => .channelRead
  | .freeBuffer => .freeBuffer
  | .channelClose _ => .channelClose
  | .exitSignal _ => .exitSignal
  | .setBits .cmdSuccess => .setSuccess
  | .setBits .fail => .setFail
  | .setBits .finish => .setFinish
  | .disconnect => .disconnect
  | .logDone => .logDone
  | .vTaskDelete => .deleteTask

def Label.Possible : Label → Prop
  | .channelRead r => r.Possible
  | _ => True

instance : ∀ l : Label, Decidable l.Possible
  | .channelRead r => inferInstanceAs (Decidable r.Possible)
  | .start | .libssh2Init _ | .inetAddr _ | .gethostbyname _ | .socket _ | .connect _
  | .sessionInit _ | .handshake _ | .userauthPassword _ | .printCommand | .execSshCommand
  | .openSession _ | .channelExec _ | .malloc _ | .freeBuffer | .channelClose _ | .exitSignal _
  | .setBits _ | .disconnect | .logDone | .vTaskDelete => isTrue trivial

def nextSock (s : State) : Label → Int
  | .socket fd => fd
  | _ => s.sock

def nextRxBuff (s : State) : Label → Option Reading
  | .malloc block => block.map Reading.initial
  | .channelRead r =>
      s.rxBuff.map fun reading =>
        match readTurn bufferSize reading r with
        | .again t => t
        | .return inputBuffer _ => { reading with inputBuffer := inputBuffer }
  | _ => s.rxBuff

def effect (s : State) (l : Label) : State where
  pc := (outcome s l).1
  command := s.command
  sock := nextSock s l
  rxBuff := nextRxBuff s l
  calls := s.calls ++ (outcome s l).2

def step (s : State) (l : Label) : Option State :=
  if s.pc = l.pc ∧ l.Possible then some (effect s l) else none

theorem step_eq_some {s t : State} {l : Label} :
    step s l = some t ↔ (s.pc = l.pc ∧ l.Possible) ∧ t = effect s l := by
  rw [step, Option.ite_none_right_eq_some, Option.some.injEq, eq_comm (a := t)]

/-- The call reads the record of the waiting task or writes its event group. -/
def Call.touches : Call → Bool
  | .readParameters | .setBits _ => true
  | .exec _ | .event _ => false

/-! ### The bits the task has set -/

def Call.bit : Call → Option TaskBit
  | .setBits bit => some bit
  | .readParameters | .exec _ | .event _ => none

def bitsOf (calls : List Call) : Finset TaskBit := (calls.filterMap Call.bit).toFinset

@[simp] theorem bitsOf_nil : bitsOf [] = ∅ := rfl

@[simp] theorem bitsOf_append (xs ys : List Call) : bitsOf (xs ++ ys) = bitsOf xs ∪ bitsOf ys := by
  rw [bitsOf, List.filterMap_append, List.toFinset_append]
  rfl

theorem mem_bitsOf {bit : TaskBit} {calls : List Call} :
    bit ∈ bitsOf calls ↔ .setBits bit ∈ calls := by
  simp only [bitsOf, List.mem_toFinset, List.mem_filterMap]
  constructor
  · rintro ⟨c, hc, hbit⟩
    cases c with
    | setBits b => exact Option.some.inj hbit ▸ hc
    | readParameters | exec _ | event _ => exact absurd hbit (by simp [Call.bit])
  · intro h
    exact ⟨.setBits bit, h, rfl⟩

/-- Neither a helper nor the success mark has been reached. -/
def Pc.working : Pc → Bool
  | .disconnect | .logDone | .setFinish | .deleteTask | .deleted => false
  | _ => true

/-- Which bits have been set when the task is at a place. -/
def Pc.reports : Pc → Finset TaskBit → Prop
  | .disconnect | .logDone => fun bits => bits = {.cmdSuccess}
  | .setFinish => fun bits => bits = {.cmdSuccess} ∨ bits = {.fail}
  | .deleteTask | .deleted => fun bits => bits = {.finish, .cmdSuccess} ∨ bits = {.finish, .fail}
  | _ => fun bits => bits = ∅

def Reported (s : State) : Prop := s.pc.reports (bitsOf s.calls)

theorem reported_start (command : List UInt8) : Reported (start command) := rfl

theorem reports_of_working {pc : Pc} {bits : Finset TaskBit} (h : pc.working = true) :
    pc.reports bits ↔ bits = ∅ := by
  cases pc
  case disconnect | logDone | setFinish | deleteTask | deleted => exact absurd h (by decide)
  all_goals exact Iff.rfl

/-- A step that sets no bit says nothing, and does not by itself leave the working places. -/
theorem quiet_outcome (s : State) {l : Label} (hl : ∀ bit, l ≠ .setBits bit) :
    bitsOf (outcome s l).2 = ∅ ∧ (l.pc.working = true → (outcome s l).1.working = true) := by
  cases l with
  | setBits bit => exact absurd rfl (hl bit)
  | disconnect =>
      refine ⟨?_, fun hworking => absurd hworking (by decide)⟩
      simp only [outcome, disconnectAndCleanup, sessionFree]
      split <;> rfl
  | logDone | vTaskDelete => exact ⟨rfl, fun hworking => absurd hworking (by decide)⟩
  | channelRead r =>
      simp only [outcome, afterRead]
      split
      · exact ⟨rfl, fun _ => rfl⟩
      · exact ⟨rfl, fun _ => rfl⟩
      · split
        · exact ⟨rfl, fun _ => rfl⟩
        · refine ⟨rfl, fun _ => ?_⟩
          simp only
          split <;> rfl
  | channelExec rc | channelClose rc =>
      refine ⟨rfl, fun _ => ?_⟩
      simp only [outcome]
      split
      · rfl
      · split <;> rfl
  | inetAddr _ | gethostbyname _ | connect _ | handshake _ | userauthPassword _ =>
      refine ⟨rfl, fun _ => ?_⟩
      simp only [outcome]
      split <;> rfl
  | libssh2Init _ | socket _ | sessionInit _ | freeBuffer | exitSignal _ =>
      simp only [outcome]
      split <;> exact ⟨rfl, fun _ => rfl⟩
  | openSession r => cases r <;> exact ⟨rfl, fun _ => rfl⟩
  | malloc block => cases block <;> exact ⟨rfl, fun _ => rfl⟩
  | start | printCommand | execSshCommand => exact ⟨rfl, fun _ => rfl⟩

theorem reported_step (s : State) (l : Label) (t : State) (h : Reported s)
    (hstep : step s l = some t) : Reported t := by
  obtain ⟨⟨hpc, _⟩, rfl⟩ := step_eq_some.mp hstep
  unfold Reported at h ⊢
  rw [hpc] at h
  simp only [effect, bitsOf_append]
  by_cases hbits : ∃ bit, l = .setBits bit
  · obtain ⟨bit, rfl⟩ := hbits
    cases bit with
    | cmdSuccess =>
        have hnone : bitsOf s.calls = ∅ := h
        rw [hnone]
        rfl
    | fail =>
        have hnone : bitsOf s.calls = ∅ := h
        rw [hnone]
        exact .inr rfl
    | finish =>
        rcases h with hset | hset <;> rw [hset]
        · exact .inl (Finset.union_comm {TaskBit.cmdSuccess} {TaskBit.finish})
        · exact .inr (Finset.union_comm {TaskBit.fail} {TaskBit.finish})
  · have hl : ∀ bit, l ≠ .setBits bit := fun bit heq => hbits ⟨bit, heq⟩
    obtain ⟨hnothing, hstays⟩ := quiet_outcome s hl
    rw [hnothing, Finset.union_empty]
    by_cases hworking : l.pc.working = true
    · exact (reports_of_working (hstays hworking)).mpr ((reports_of_working hworking).mp h)
    · cases l with
      | disconnect => exact h
      | logDone => exact .inl h
      | vTaskDelete => exact h
      | setBits bit => exact absurd rfl (hl bit)
      | _ => exact absurd rfl hworking

theorem finish_mem_iff {s : State} (h : Reported s) :
    .finish ∈ bitsOf s.calls ↔ s.pc = .deleteTask ∨ s.pc = .deleted := by
  unfold Reported at h
  cases hpc : s.pc <;> rw [hpc] at h
  case deleteTask | deleted => rcases h with h | h <;> simp [h]
  case setFinish => rcases h with h | h <;> simp [h]
  all_goals
    simp only [Pc.reports] at h
    simp [h]

theorem not_fail_and_success {s : State} (h : Reported s) :
    ¬(.fail ∈ bitsOf s.calls ∧ .cmdSuccess ∈ bitsOf s.calls) := by
  unfold Reported at h
  cases hpc : s.pc <;> rw [hpc] at h
  case deleteTask | deleted | setFinish => rcases h with h | h <;> simp [h]
  all_goals
    simp only [Pc.reports] at h
    simp [h]

end InfoGlobe.SshTask
