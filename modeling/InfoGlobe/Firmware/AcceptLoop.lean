import InfoGlobe.Library.ResourceLedger
import InfoGlobe.Library.StepSystem
import InfoGlobe.Firmware.TcpHelpers

/-!
The sockets of a server task. The three servers share one way of handling them: a listening socket
from `setup_tcp_socket`, a loop that accepts a client, hosts a session and closes it, and a cleanup
behind the loop. This module keeps the books of that way, and has the task of the servers whose loop
does nothing else.
-/

namespace InfoGlobe.AcceptLoop
open ResourceLedger StepSystem

inductive Phase
  | setup | accept | session | cleanup | ended
  deriving DecidableEq

/-- The variables of a server task that concern sockets, and its calls that do. -/
structure Sockets where
  phase : Phase
  needToCleanup : Bool
  listenSock : Int
  sock : Int
  ledger : List (Event Int)

inductive SocketOp
  | setup (socket bindErr listenErr : Int)
  | accept (sock : Int)
  /-- `shutdown` and `close` behind a session, and whether the loop goes on. -/
  | closeSession (again : Bool)
  | cleanup

/-- The descriptor that a result of `socket` or `accept` stands for. -/
def opened (fd : Int) : List (Event Int) := if 0 ≤ fd then [.acquired fd] else []

/-- `while (listen_sock>0)`. -/
def loopTest (listenSock : Int) : Phase := if 0 < listenSock then .accept else .cleanup

def Sockets.step (v : Sockets) : SocketOp → Option Sockets
  | .setup socket bindErr listenErr =>
      if v.phase = .setup then
        let listenSock := setupTcpSocket socket bindErr listenErr
        some { v with
          phase := loopTest listenSock
          needToCleanup := decide (listenSock < -1)
          listenSock := listenSock
          ledger := v.ledger ++ opened socket }
      else none
  | .accept sock =>
      if v.phase = .accept then
        some { v with phase := .session, sock := sock, ledger := v.ledger ++ opened sock }
      else none
  | .closeSession again =>
      if v.phase = .session then
        some { v with
          phase := if again then loopTest v.listenSock else .cleanup
          ledger := v.ledger ++ [.used v.sock, .released v.sock] }
      else none
  | .cleanup =>
      if v.phase = .cleanup then
        some { v with
          phase := .ended
          ledger := v.ledger ++ if v.needToCleanup then [.released v.listenSock] else [] }
      else none

/-- The task is entered with nothing open. -/
def Sockets.initial : Sockets where
  phase := .setup
  needToCleanup := false
  listenSock := 0
  sock := -1
  ledger := []

/-- The descriptors the task is still going to use. -/
def Sockets.inUse (v : Sockets) : Finset Int :=
  match v.phase with
  | .setup | .ended => ∅
  | .accept => {v.listenSock}
  | .session => {v.listenSock, v.sock}
  | .cleanup => if v.needToCleanup then {v.listenSock} else ∅

/-- Only open descriptors are shut down and closed, and every descriptor that the task no longer
uses has been closed exactly once for every time it was opened. -/
structure Accounted (v : Sockets) : Prop where
  disciplined : Disciplined v.ledger
  settled : ∀ fd, fd ∉ v.inUse → Settled v.ledger fd

/-- The system hands out descriptors that are not open. -/
def FreshDescriptor (v : Sockets) : SocketOp → Prop
  | .accept sock => sock ∉ held v.ledger
  | .setup _ _ _ | .closeSession _ | .cleanup => True

/-- The setup has no socket at all or a working one with a positive descriptor, and a session is
only closed when `accept` had a client for it and the loop goes on. -/
def LosesNothing (v : Sockets) : SocketOp → Prop
  | .setup socket bindErr listenErr => socket < 0 ∨ (0 < socket ∧ bindErr = 0 ∧ listenErr = 0)
  | .closeSession again => 0 ≤ v.sock ∧ again = true
  | .accept _ | .cleanup => True

instance (v : Sockets) : DecidablePred (FreshDescriptor v)
  | .accept sock => inferInstanceAs (Decidable (sock ∉ held v.ledger))
  | .setup _ _ _ | .closeSession _ | .cleanup => .isTrue trivial

instance (v : Sockets) : DecidablePred (LosesNothing v)
  | .setup _ _ _ => inferInstanceAs (Decidable (_ ∨ _))
  | .closeSession _ => inferInstanceAs (Decidable (_ ∧ _))
  | .accept _ | .cleanup => .isTrue trivial

/-! ### What is held -/

/-- What the task holds in each phase, as long as it has lost nothing. -/
def Sockets.holding (v : Sockets) : Finset Int :=
  match v.phase with
  | .setup | .cleanup | .ended => ∅
  | .accept => {v.listenSock}
  | .session => if 0 ≤ v.sock then {v.listenSock, v.sock} else {v.listenSock}

structure Kept (v : Sockets) : Prop where
  disciplined : Disciplined v.ledger
  held : held v.ledger = v.holding
  listening : v.phase = .accept ∨ v.phase = .session → 0 < v.listenSock
  apart : v.phase = .session → v.sock ≠ v.listenSock
  clean : v.needToCleanup = false

theorem kept_initial : Kept Sockets.initial :=
  ⟨disciplined_nil, rfl, by simp [Sockets.initial], by simp [Sockets.initial], rfl⟩

theorem holding_subset_inUse (v : Sockets) : v.holding ⊆ v.inUse := by
  unfold Sockets.holding Sockets.inUse
  cases v.phase with
  | setup | accept | cleanup | ended => simp
  | session =>
      simp only
      split <;> simp

theorem accounted_of_kept (v : Sockets) (h : Kept v) : Accounted v := by
  refine ⟨h.disciplined, fun fd hfd => ?_⟩
  rw [settled_iff_not_held h.disciplined, h.held]
  exact fun hmem => hfd (holding_subset_inUse v hmem)

theorem not_held_of_accounted {v : Sockets} (h : Accounted v) {fd : Int} (hfd : fd ∉ v.inUse) :
    fd ∉ held v.ledger :=
  (settled_iff_not_held h.disciplined fd).mp (h.settled fd hfd)

@[simp] theorem held_opened (log : List (Event Int)) (fd : Int) :
    held (log ++ opened fd) = if 0 ≤ fd then insert fd (held log) else held log := by
  unfold opened
  split
  · exact held_append_singleton log (.acquired fd)
  · rw [List.append_nil]

theorem disciplined_opened {log : List (Event Int)} {fd : Int} (h : Disciplined log)
    (hfresh : fd ∉ held log) : Disciplined (log ++ opened fd) := by
  unfold opened
  split
  · exact disciplined_append_singleton.mpr ⟨h, hfresh⟩
  · rwa [List.append_nil]

theorem disciplined_close {log : List (Event Int)} {fd : Int} :
    Disciplined (log ++ [.used fd, .released fd]) ↔ Disciplined log ∧ fd ∈ held log := by
  have hsplit : log ++ [.used fd, .released fd] = log ++ [.used fd] ++ [.released fd] := by simp
  rw [hsplit, disciplined_append_singleton, disciplined_append_singleton]
  constructor
  · rintro ⟨h, _⟩
    exact h
  · intro h
    exact ⟨h, by simpa [Permitted, enter] using h.2⟩

@[simp] theorem held_close (log : List (Event Int)) (fd : Int) :
    held (log ++ [.used fd, .released fd]) = (held log).erase fd := by
  have hsplit : log ++ [.used fd, .released fd] = log ++ [.used fd] ++ [.released fd] := by simp
  rw [hsplit, held_append_singleton, held_append_singleton]
  rfl

theorem kept_step (v : Sockets) (op : SocketOp) (w : Sockets) (h : Kept v)
    (hfresh : FreshDescriptor v op) (hop : LosesNothing v op) (hstep : v.step op = some w) :
    Kept w := by
  obtain ⟨disciplined, hheld, listening, apart, clean⟩ := h
  cases op with
  | setup socket bindErr listenErr =>
      simp only [Sockets.step, Option.ite_none_right_eq_some, Option.some.injEq] at hstep
      obtain ⟨hphase, rfl⟩ := hstep
      have hempty : held v.ledger = ∅ := by simpa [Sockets.holding, hphase] using hheld
      have hopened : Disciplined (v.ledger ++ opened socket) :=
        disciplined_opened disciplined (by simp [hempty])
      rcases hop with hnone | ⟨hpos, rfl, rfl⟩
      · have hsetup : setupTcpSocket socket bindErr listenErr = -1 := if_pos hnone
        refine ⟨hopened, ?_, by simp [hsetup, loopTest], by simp [hsetup, loopTest],
          by simp [hsetup]⟩
        simp [Sockets.holding, hsetup, loopTest, hempty, Int.not_le.mpr hnone]
      · have hsetup : setupTcpSocket socket 0 0 = socket := by
          simp [setupTcpSocket, Int.not_lt.mpr (Int.le_of_lt hpos)]
        refine ⟨hopened, ?_, fun _ => by rwa [hsetup], by simp [hsetup, loopTest, hpos], ?_⟩
        · simp [Sockets.holding, hsetup, loopTest, hpos, hempty, Int.le_of_lt hpos]
        · simp only [hsetup, decide_eq_false_iff_not]
          omega
  | accept sock =>
      simp only [Sockets.step, Option.ite_none_right_eq_some, Option.some.injEq] at hstep
      obtain ⟨hphase, rfl⟩ := hstep
      have hlisten : held v.ledger = {v.listenSock} := by
        simpa [Sockets.holding, hphase] using hheld
      have hsock : sock ∉ held v.ledger := hfresh
      refine ⟨disciplined_opened disciplined hsock, ?_, fun _ => listening (.inl hphase), ?_, clean⟩
      · simp only [held_opened, hlisten, Sockets.holding]
        split
        · exact Finset.pair_comm _ _
        · rfl
      · intro _
        simpa [hlisten] using hsock
  | closeSession again =>
      simp only [Sockets.step, Option.ite_none_right_eq_some, Option.some.injEq] at hstep
      obtain ⟨hphase, rfl⟩ := hstep
      obtain ⟨hsock, rfl⟩ := hop
      have hpos := listening (.inr hphase)
      have hboth : held v.ledger = {v.listenSock, v.sock} := by
        simpa [Sockets.holding, hphase, hsock] using hheld
      refine ⟨disciplined_close.mpr ⟨disciplined, by simp [hboth]⟩, ?_, fun _ => hpos, ?_, clean⟩
      · simp only [held_close, hboth, Sockets.holding, loopTest, hpos, if_true]
        rw [Finset.pair_comm]
        exact Finset.erase_insert (by simpa using apart hphase)
      · simp [loopTest, hpos]
  | cleanup =>
      simp only [Sockets.step, Option.ite_none_right_eq_some, Option.some.injEq] at hstep
      obtain ⟨hphase, rfl⟩ := hstep
      have hempty : held v.ledger = ∅ := by simpa [Sockets.holding, hphase] using hheld
      refine ⟨?_, ?_, by simp, by simp, clean⟩
      · simpa [clean] using disciplined
      · simp [clean, hempty, Sockets.holding]

/-- The steps that lose a descriptor leave the books wrong at once. -/
theorem losesNothing_of_accounted (v : Sockets) (op : SocketOp) (w : Sockets) (h : Kept v)
    (_ : FreshDescriptor v op) (hstep : v.step op = some w) (hw : Accounted w) :
    LosesNothing v op := by
  cases op with
  | accept _ | cleanup => trivial
  | setup socket bindErr listenErr =>
      simp only [Sockets.step, Option.ite_none_right_eq_some, Option.some.injEq] at hstep
      obtain ⟨_, rfl⟩ := hstep
      by_contra hlost
      simp only [LosesNothing, not_or] at hlost
      obtain ⟨hsocket, hbad⟩ := hlost
      have hfail : ¬0 < setupTcpSocket socket bindErr listenErr := by
        rwa [setupTcpSocket_pos_iff]
      have hnot : socket ∉ held (v.ledger ++ opened socket) := by
        apply not_held_of_accounted hw
        simp only [Sockets.inUse, loopTest, hfail, if_false, decide_eq_true_eq]
        split
        · rw [Finset.mem_singleton]
          omega
        · exact Finset.notMem_empty socket
      simp [Int.not_lt.mp hsocket] at hnot
  | closeSession again =>
      simp only [Sockets.step, Option.ite_none_right_eq_some, Option.some.injEq] at hstep
      obtain ⟨hphase, rfl⟩ := hstep
      have hpos := h.listening (.inr hphase)
      have hmem := (disciplined_close.mp hw.disciplined).2
      have hsock : 0 ≤ v.sock := by
        by_contra hneg
        rw [h.held] at hmem
        simp only [Sockets.holding, hphase, hneg, if_false, Finset.mem_singleton] at hmem
        exact h.apart hphase hmem
      refine ⟨hsock, ?_⟩
      by_contra hstop
      have hboth : held v.ledger = {v.listenSock, v.sock} := by
        simpa [Sockets.holding, hphase, hsock] using h.held
      have hnot : v.listenSock ∉ held (v.ledger ++ [.used v.sock, .released v.sock]) := by
        apply not_held_of_accounted hw
        simp [Sockets.inUse, hstop, h.clean]
      simp [hboth, (h.apart hphase).symm] at hnot

/-! ### The task of the message server and of the button server -/

section ServerTask
universe u v w
variable {σ : Type u} {ℓ : Type v} {β : Type w}

/-- The `do_retransmit` of a server, entered with the content of its local variables. -/
structure Session (σ : Type u) (ℓ : Type v) (β : Type w) where
  enter : σ → β → σ
  step : σ → ℓ → Option σ
  returned : σ → Bool

inductive Call
  | socket (fd : Int)
  | accept (fd : Int)
  | shutdown (fd : Int)
  | close (fd : Int)
  deriving DecidableEq

structure State (σ : Type u) where
  pc : Phase
  needToCleanup : Bool
  listenSock : Int
  sock : Int
  /-- What the session works on, and what it leaves for the next one. -/
  host : σ
  calls : List Call

inductive Label (ℓ : Type v) (β : Type w)
  | setup (socket bindErr listenErr : Int)
  | accept (sock : Int) (locals : β)
  | session (l : ℓ)
  | closeSession
  | cleanup

def start (host : σ) : State σ where
  pc := .setup
  needToCleanup := false
  listenSock := 0
  sock := -1
  host := host
  calls := []

/-- The task from its `setup_tcp_socket` on; it is deleted at its end. -/
def serverTask (session : Session σ ℓ β) (s : State σ) : Label ℓ β → Option (State σ)
  | .setup socket bindErr listenErr =>
      if s.pc = .setup then
        let listenSock := setupTcpSocket socket bindErr listenErr
        some { s with
          pc := loopTest listenSock
          needToCleanup := decide (listenSock < -1)
          listenSock := listenSock
          calls := s.calls ++ [.socket socket] }
      else none
  | .accept sock locals =>
      if s.pc = .accept then
        some { s with
          pc := .session
          sock := sock
          host := session.enter s.host locals
          calls := s.calls ++ [.accept sock] }
      else none
  | .session l => (session.step s.host l).map fun host => { s with host := host }
  | .closeSession =>
      if s.pc = .session ∧ session.returned s.host then
        some { s with
          pc := loopTest s.listenSock
          calls := s.calls ++ [.shutdown s.sock, .close s.sock] }
      else none
  | .cleanup =>
      if s.pc = .cleanup then
        some { s with
          pc := .ended
          calls := s.calls ++ if s.needToCleanup then [.close s.listenSock] else [] }
      else none

def Call.events : Call → List (Event Int)
  | .socket fd | .accept fd => opened fd
  | .shutdown fd => [.used fd]
  | .close fd => [.released fd]

def sockets (s : State σ) : Sockets where
  phase := s.pc
  needToCleanup := s.needToCleanup
  listenSock := s.listenSock
  sock := s.sock
  ledger := s.calls.flatMap Call.events

def socketOp (_ : State σ) : Label ℓ β → Option SocketOp
  | .setup socket bindErr listenErr => some (.setup socket bindErr listenErr)
  | .accept sock _ => some (.accept sock)
  | .session _ => none
  | .closeSession => some (.closeSession true)
  | .cleanup => some .cleanup

theorem serverTask_seen (session : Session σ ℓ β) (s : State σ) (l : Label ℓ β) (t : State σ)
    (hstep : serverTask session s l = some t) :
    (socketOp s l).elim (sockets t = sockets s) fun k => (sockets s).step k = some (sockets t) := by
  cases l with
  | session l =>
      simp only [serverTask, Option.map_eq_some_iff] at hstep
      obtain ⟨host, _, rfl⟩ := hstep
      rfl
  | setup socket bindErr listenErr | accept sock locals =>
      simp only [serverTask, Option.ite_none_right_eq_some, Option.some.injEq] at hstep
      obtain ⟨hpc, rfl⟩ := hstep
      simp [socketOp, sockets, Sockets.step, hpc, Call.events]
  | closeSession =>
      simp only [serverTask, Option.ite_none_right_eq_some, Option.some.injEq] at hstep
      obtain ⟨⟨hpc, _⟩, rfl⟩ := hstep
      simp [socketOp, sockets, Sockets.step, hpc, Call.events]
  | cleanup =>
      simp only [serverTask, Option.ite_none_right_eq_some, Option.some.injEq] at hstep
      obtain ⟨hpc, rfl⟩ := hstep
      simp only [socketOp, sockets, Sockets.step, hpc, Option.elim_some, if_true,
        List.flatMap_append]
      cases s.needToCleanup <;> rfl

/-- The books of such a task are right in exactly the runs in which no step loses a descriptor. -/
theorem serverTask_accounted_iff (session : Session σ ℓ β) (host : σ) {ls : List (Label ℓ β)}
    (fresh : EachStep (serverTask session) (SeenAs sockets socketOp FreshDescriptor)
      (start host) ls) :
    Always (serverTask session) (fun s => Accounted (sockets s)) (start host) ls ↔
      EachStep (serverTask session) (SeenAs sockets socketOp LosesNothing) (start host) ls := by
  have hstart : Kept (sockets (start host)) := kept_initial
  exact always_iff_eachStep_of_view (serverTask_seen session) accounted_of_kept kept_step
    losesNothing_of_accounted hstart fresh

end ServerTask

end InfoGlobe.AcceptLoop
