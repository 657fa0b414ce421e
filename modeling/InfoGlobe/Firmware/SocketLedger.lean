import InfoGlobe.Firmware.AcceptLoop
import InfoGlobe.Firmware.ButtonTcpTask
import InfoGlobe.Firmware.OtaServerTask
import InfoGlobe.Firmware.TcpServerTask

/-!
The socket ledgers of the three server tasks. A failing `bind` or `listen` loses the descriptor that
the cleanup is meant for, a session is closed even when `accept` failed, and the update server
leaves its loop with the listening socket open.
-/

namespace InfoGlobe
open StepSystem AcceptLoop ResourceLedger

namespace TcpServerTask

/-- `do_retransmit` of the message port. Other tasks use the display queue at any time. -/
def session : Session State Label (Nat → UInt8) where
  enter s rxBuffer := start rxBuffer s.displayQueue
  step := step
  returned s := s.pc = .done

/-- The session before the first one, with a queue of any occupancy. -/
def idle (displayQueue : List MsgBuffer) : State :=
  { start (fun _ => 0) displayQueue with pc := .done }

abbrev TaskState := AcceptLoop.State State
abbrev TaskLabel := AcceptLoop.Label Label (Nat → UInt8)

def tcpServerTask : TaskState → TaskLabel → Option TaskState := serverTask session

end TcpServerTask

namespace ButtonTcpTask

def session : Session State RecvResult (Nat → UInt8) where
  enter s rxBuffer := { s with session := some rxBuffer }
  step s r := step s (.recv r)
  returned s := s.session.isNone

abbrev TaskState := AcceptLoop.State State
abbrev TaskLabel := AcceptLoop.Label RecvResult (Nat → UInt8)

def buttonTcpTask : TaskState → TaskLabel → Option TaskState := serverTask session

end ButtonTcpTask

namespace OtaServerTask

def Call.events : Call → List (Event Int)
  | .socket fd | .accept fd => opened fd
  | .shutdown fd => [.used fd]
  | .close fd => [.released fd]
  | .send _ _ | .espRestart => []

def Pc.phase : Pc → Phase
  | .setup => .setup
  | .accept => .accept
  | .session | .sendAck | .sendVerdict | .closeSession => .session
  | .cleanup => .cleanup
  | .reboot | .restarted => .ended

def sockets (s : State) : Sockets where
  phase := s.pc.phase
  needToCleanup := s.needToCleanup
  listenSock := s.listenSock
  sock := s.sock
  ledger := s.calls.flatMap Call.events

/-- The loop is left behind a session that returned 0. -/
def socketOp (s : State) : Label → Option SocketOp
  | .setup socket bindErr listenErr => some (.setup socket bindErr listenErr)
  | .accept sock _ => some (.accept sock)
  | .closeSession => some (.closeSession (decide (s.otaRet ≠ 0)))
  | .cleanup => some .cleanup
  | .session _ | .sendAck | .sendVerdict | .reboot => none

theorem phase_loopTest (listenSock : Int) :
    (loopTest listenSock).phase = AcceptLoop.loopTest listenSock := by
  unfold loopTest AcceptLoop.loopTest
  split <;> rfl

theorem otaServerTask_seen (p : OtaRetransmit.Platform) (s : State) (l : Label) (t : State)
    (hstep : step p s l = some t) :
    (socketOp s l).elim (sockets t = sockets s) fun k => (sockets s).step k = some (sockets t) := by
  cases l with
  | session l =>
      obtain ⟨hpc, session, _, rfl⟩ := step_session hstep
      simp only [socketOp, Option.elim_none, State.hosting]
      split
      · simp [sockets, hpc, Pc.phase]
      · rfl
  | setup socket bindErr listenErr =>
      simp only [step, Option.ite_none_right_eq_some, Option.some.injEq] at hstep
      obtain ⟨hpc, rfl⟩ := hstep
      have hphase : s.pc.phase = .setup := by rw [hpc]; rfl
      simp [socketOp, sockets, Sockets.step, hphase, Call.events, phase_loopTest]
  | accept sock rxBuffer =>
      simp only [step, Option.ite_none_right_eq_some, Option.some.injEq] at hstep
      obtain ⟨hpc, rfl⟩ := hstep
      simp [socketOp, sockets, Sockets.step, hpc, Call.events, Pc.phase]
  | sendAck | sendVerdict | reboot =>
      simp only [step, Option.ite_none_right_eq_some, Option.some.injEq] at hstep
      obtain ⟨hpc, rfl⟩ := hstep
      simp [socketOp, sockets, hpc, Call.events, Pc.phase]
  | closeSession =>
      simp only [step, Option.ite_none_right_eq_some, Option.some.injEq] at hstep
      obtain ⟨hpc, rfl⟩ := hstep
      have hphase : s.pc.phase = .session := by rw [hpc]; rfl
      by_cases hret : s.otaRet = 0
      · simp [socketOp, sockets, Sockets.step, hpc, hret, Call.events, Pc.phase]
      · simp [socketOp, sockets, Sockets.step, hphase, hret, Call.events, phase_loopTest]
  | cleanup =>
      simp only [step, Option.ite_none_right_eq_some, Option.some.injEq] at hstep
      obtain ⟨hpc, rfl⟩ := hstep
      simp only [socketOp, sockets, Sockets.step, hpc, Pc.phase, Option.elim_some, if_true,
        List.flatMap_append]
      cases s.needToCleanup <;> rfl

theorem otaServerTask_accounted_iff (p : OtaRetransmit.Platform) {ls : List Label}
    (fresh : EachStep (step p) (SeenAs sockets socketOp FreshDescriptor) start ls) :
    Always (step p) (fun s => Accounted (sockets s)) start ls ↔
      EachStep (step p) (SeenAs sockets socketOp LosesNothing) start ls := by
  have hstart : Kept (sockets start) := kept_initial
  exact always_iff_eachStep_of_view (otaServerTask_seen p) accounted_of_kept kept_step
    losesNothing_of_accounted hstart fresh

end OtaServerTask

/-- Each server task keeps its socket books right in exactly the runs in which no step loses a
descriptor. -/
theorem socket_ledger_iff (p : OtaRetransmit.Platform) (displayQueue : List MsgBuffer)
    (table : Nat → UInt8) :
    (∀ ls, EachStep TcpServerTask.tcpServerTask (SeenAs sockets socketOp FreshDescriptor)
        (start (TcpServerTask.idle displayQueue)) ls →
      (Always TcpServerTask.tcpServerTask (fun s => Accounted (sockets s))
          (start (TcpServerTask.idle displayQueue)) ls ↔
        EachStep TcpServerTask.tcpServerTask (SeenAs sockets socketOp LosesNothing)
          (start (TcpServerTask.idle displayQueue)) ls)) ∧
    (∀ ls, EachStep ButtonTcpTask.buttonTcpTask (SeenAs sockets socketOp FreshDescriptor)
        (start (ButtonTcpTask.boot table)) ls →
      (Always ButtonTcpTask.buttonTcpTask (fun s => Accounted (sockets s))
          (start (ButtonTcpTask.boot table)) ls ↔
        EachStep ButtonTcpTask.buttonTcpTask (SeenAs sockets socketOp LosesNothing)
          (start (ButtonTcpTask.boot table)) ls)) ∧
    ∀ ls, EachStep (OtaServerTask.step p)
        (SeenAs OtaServerTask.sockets OtaServerTask.socketOp FreshDescriptor)
        OtaServerTask.start ls →
      (Always (OtaServerTask.step p) (fun s => Accounted (OtaServerTask.sockets s))
          OtaServerTask.start ls ↔
        EachStep (OtaServerTask.step p)
          (SeenAs OtaServerTask.sockets OtaServerTask.socketOp LosesNothing)
          OtaServerTask.start ls) := by
  refine ⟨fun ls fresh => ?_, fun ls fresh => ?_, fun ls fresh => ?_⟩
  · exact serverTask_accounted_iff TcpServerTask.session _ fresh
  · exact serverTask_accounted_iff ButtonTcpTask.session _ fresh
  · exact OtaServerTask.otaServerTask_accounted_iff p fresh

/-- One client of the button port, and its session is closed again. -/
def oneClient : List ButtonTcpTask.TaskLabel :=
  [.setup 54 0 0, .accept 55 fun _ => 0, .session .closed, .closeSession]

theorem socket_ledger_one_client :
    Always ButtonTcpTask.buttonTcpTask (fun s => Accounted (sockets s))
      (start (ButtonTcpTask.boot fun _ => 0)) oneClient :=
  ((socket_ledger_iff OtaRetransmit.espIdf [] fun _ => 0).2.1 oneClient (by decide)).mpr
    (by decide)

/-- `bind` fails, because the port is in use: the cleanup closes -2, and 54 stays open. -/
theorem failed_bind_loses_descriptor :
    EachStep TcpServerTask.tcpServerTask (SeenAs sockets socketOp FreshDescriptor)
        (start (TcpServerTask.idle [])) [.setup 54 (-1) 0, .cleanup] ∧
      ¬Always TcpServerTask.tcpServerTask (fun s => Accounted (sockets s))
        (start (TcpServerTask.idle [])) [.setup 54 (-1) 0, .cleanup] := by
  refine ⟨by decide, fun h => ?_⟩
  have hopen := ((h.2 _ rfl).2 _ rfl).settled 54 (by decide)
  exact absurd hopen (by decide)

end InfoGlobe
