import InfoGlobe.Firmware.OtaRetransmit

/-!
The task of the update port. It hosts one update session after the other until one of them returns
0; the reboot behind the loop is shared by every way of leaving the loop or of never entering it.
-/

namespace InfoGlobe.OtaServerTask
open StepSystem Animations OtaRetransmit

def ackBuff : List UInt8 := asciiBytes "ACK"
def nakBuff : List UInt8 := asciiBytes "NAK"

inductive Pc
  | setup | accept | session | sendAck | sendVerdict | closeSession | cleanup | reboot | restarted
  deriving DecidableEq

inductive Call
  | socket (fd : Int)
  | accept (fd : Int)
  | send (fd : Int) (bytes : List UInt8)
  | shutdown (fd : Int)
  | close (fd : Int)
  | espRestart

structure State where
  pc : Pc
  needToCleanup : Bool
  listenSock : Int
  sock : Int
  /-- The activation of `do_retransmit`. -/
  session : OtaRetransmit.State
  otaRet : Int
  /-- What the sessions have returned so far. -/
  rets : List Int
  frames : List MsgBuffer
  calls : List Call

inductive Label
  | setup (socket bindErr listenErr : Int)
  | accept (sock : Int) (rxBuffer : Nat → UInt8)
  | session (l : OtaRetransmit.Label)
  | sendAck
  | sendVerdict
  | closeSession
  | cleanup
  | reboot

def start : State where
  pc := .setup
  needToCleanup := false
  listenSock := 0
  sock := -1
  session := OtaRetransmit.start fun _ => 0
  otaRet := 0
  rets := []
  frames := []
  calls := []

/-- `while (listen_sock>0)`. -/
def loopTest (listenSock : Int) : Pc := if 0 < listenSock then .accept else .cleanup

/-- What is sent behind the "ACK" that follows every session. -/
def verdict (otaRet : Int) : List UInt8 := if otaRet ≠ 0 then nakBuff else ackBuff

/-- The session has made a step, which may have been its return. -/
def State.hosting (s : State) (session : OtaRetransmit.State) : State :=
  match session.pc with
  | .returned code =>
      { s with pc := .sendAck, session := session, otaRet := code, rets := s.rets ++ [code] }
  | _ => { s with session := session }

def step (p : Platform) (s : State) : Label → Option State
  | .setup socket bindErr listenErr =>
      if s.pc = .setup then
        let listenSock := setupTcpSocket socket bindErr listenErr
        some { s with
          pc := loopTest listenSock
          needToCleanup := decide (listenSock < -1)
          listenSock := listenSock
          calls := s.calls ++ [.socket socket] }
      else none
  | .accept sock rxBuffer =>
      if s.pc = .accept then
        some { s with
          pc := .session
          sock := sock
          session := OtaRetransmit.start rxBuffer
          calls := s.calls ++ [.accept sock] }
      else none
  | .session l =>
      if s.pc = .session then (OtaRetransmit.step p s.session l).map s.hosting else none
  | .sendAck =>
      if s.pc = .sendAck then
        some { s with pc := .sendVerdict, calls := s.calls ++ [.send s.sock ackBuff] }
      else none
  | .sendVerdict =>
      if s.pc = .sendVerdict then
        some { s with pc := .closeSession, calls := s.calls ++ [.send s.sock (verdict s.otaRet)] }
      else none
  | .closeSession =>
      if s.pc = .closeSession then
        some { s with
          pc := if s.otaRet ≠ 0 then loopTest s.listenSock else .cleanup
          calls := s.calls ++ [.shutdown s.sock, .close s.sock] }
      else none
  | .cleanup =>
      if s.pc = .cleanup then
        some { s with
          pc := .reboot
          calls := s.calls ++ if s.needToCleanup then [.close s.listenSock] else [] }
      else none
  | .reboot =>
      if s.pc = .reboot then
        some { s with
          pc := .restarted
          frames := s.frames ++ systemRebootFrames
          calls := s.calls ++ [.espRestart] }
      else none

@[simp] theorem hosting_session (s : State) (session : OtaRetransmit.State) :
    (s.hosting session).session = session := by
  unfold State.hosting
  split <;> rfl

theorem hosting_pc_of_running {s : State} {session : OtaRetransmit.State}
    (h : ∀ code, session.pc ≠ .returned code) : (s.hosting session).pc = s.pc := by
  cases hpc : session.pc with
  | returned code => exact absurd hpc (h code)
  | _ => simp only [State.hosting, hpc]

theorem step_session {p : Platform} {s t : State} {l : OtaRetransmit.Label}
    (h : step p s (.session l) = some t) :
    s.pc = .session ∧ ∃ session, OtaRetransmit.step p s.session l = some session ∧
      t = s.hosting session := by
  simp only [step, Option.ite_none_right_eq_some, Option.map_eq_some_iff] at h
  obtain ⟨hpc, session, hstep, rfl⟩ := h
  exact ⟨hpc, session, hstep, rfl⟩

/-- Outside of `do_retransmit` nothing changes its activation, except that a new one begins. -/
theorem session_of_step {p : Platform} {s t : State} {l : Label} (h : step p s l = some t)
    (hsession : ∀ sl, l ≠ .session sl) (haccept : ∀ sock rxBuffer, l ≠ .accept sock rxBuffer) :
    t.session = s.session := by
  cases l
  case session sl => exact absurd rfl (hsession sl)
  case accept sock rxBuffer => exact absurd rfl (haccept sock rxBuffer)
  all_goals
    simp only [step, Option.ite_none_right_eq_some, Option.some.injEq] at h
    obtain ⟨_, rfl⟩ := h
    rfl

/-! ### Only an installed image is booted -/

/-- `system_reboot` is reached after some session has returned 0. -/
def RebootEarned (s : State) : Prop :=
  s.pc = .reboot ∨ s.pc = .restarted → (0 : Int) ∈ s.rets

/-- With a listening socket the loop is only left through a session that returned 0. -/
structure Serving (s : State) : Prop where
  listening : 0 < s.listenSock
  begun : s.pc ≠ .setup
  answered : s.pc = .sendAck ∨ s.pc = .sendVerdict ∨ s.pc = .closeSession → s.otaRet ∈ s.rets
  left : s.pc = .cleanup ∨ s.pc = .reboot ∨ s.pc = .restarted → (0 : Int) ∈ s.rets

theorem Serving.rebootEarned {s : State} (h : Serving s) : RebootEarned s := by
  intro hpc
  exact h.left (.inr hpc)

theorem serving_hosting {s : State} (h : Serving s) (hpc : s.pc = .session)
    (session : OtaRetransmit.State) : Serving (s.hosting session) := by
  unfold State.hosting
  split
  · exact ⟨h.listening, by simp, fun _ => List.mem_append_right _ List.mem_cons_self, by simp⟩
  · exact ⟨h.listening, h.begun, by simp [hpc], by simp [hpc]⟩

theorem serving_step (p : Platform) (s : State) (l : Label) (t : State) (h : Serving s)
    (hstep : step p s l = some t) : Serving t := by
  have ⟨listening, begun, answered, left⟩ := h
  cases l
  case session l =>
    obtain ⟨hpc, session, _, rfl⟩ := step_session hstep
    exact serving_hosting h hpc session
  all_goals
    simp only [step, Option.ite_none_right_eq_some, Option.some.injEq] at hstep
    obtain ⟨hpc, rfl⟩ := hstep
  case setup => exact absurd hpc begun
  case accept => exact ⟨listening, by simp, by simp, by simp⟩
  case sendAck | sendVerdict => exact ⟨listening, by simp, fun _ => answered (by simp [hpc]), by simp⟩
  case cleanup | reboot => exact ⟨listening, by simp, by simp, fun _ => left (by simp [hpc])⟩
  case closeSession =>
    have hloop : loopTest s.listenSock = .accept := if_pos listening
    by_cases hret : s.otaRet = 0
    · refine ⟨listening, by simp [hret], by simp [hret], fun _ => ?_⟩
      exact hret ▸ answered (by simp [hpc])
    · exact ⟨listening, by simp [hret, hloop], by simp [hret, hloop], by simp [hret, hloop]⟩

theorem serving_setup {p : Platform} {t : State} {socket bindErr listenErr : Int}
    (hpos : 0 < setupTcpSocket socket bindErr listenErr)
    (hstep : step p start (.setup socket bindErr listenErr) = some t) : Serving t := by
  obtain rfl := Option.some.inj hstep
  have hloop : loopTest (setupTcpSocket socket bindErr listenErr) = .accept := if_pos hpos
  exact ⟨hpos, by simp [hloop], by simp [hloop], by simp [hloop]⟩

/-- The reboot is earned in every run in which the listening socket was set up, and in no other:
without one the task goes straight to it. -/
theorem reboot_earned_iff (p : Platform) (socket bindErr listenErr : Int) :
    (∀ ls, Always (step p) RebootEarned start (.setup socket bindErr listenErr :: ls)) ↔
      0 < socket ∧ bindErr = 0 ∧ listenErr = 0 := by
  rw [← setupTcpSocket_pos_iff]
  constructor
  · intro hall
    by_contra hneg
    have hloop : loopTest (setupTcpSocket socket bindErr listenErr) = .cleanup := if_neg hneg
    have hsetup := (hall [.cleanup]).2 _ rfl
    have hreboot := hsetup.2 _ (if_pos hloop)
    exact absurd (hreboot (.inl rfl)) (by simp [start])
  · intro hpos ls
    refine ⟨by simp [RebootEarned, start], ?_⟩
    intro t ht
    exact always_of_invariant (fun _ h => h.rebootEarned) (serving_step p) (serving_setup hpos ht) ls

/-- `bind` fails, because the port is in use, and the device reboots without any update. -/
theorem failed_bind_reboots :
    ¬Always (step espIdf) RebootEarned start [.setup 54 (-1) 0, .cleanup] := by
  intro h
  have hreboot := (h.2 _ rfl).2 _ rfl
  exact absurd (hreboot (.inl rfl)) (by simp [start])

end InfoGlobe.OtaServerTask
