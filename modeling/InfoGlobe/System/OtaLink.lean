import InfoGlobe.Client.TcpWorker
import InfoGlobe.Firmware.OtaServerTask

/-!
An update over the network: the client's worker and the server task, joined by two reliable byte
streams. Each `recv` takes any part of what is in flight, the client's `recv` times out only while
nothing is there for it, and calls fail for want of a peer only once the peer has closed.
-/

namespace InfoGlobe.OtaLink
open StepSystem OtaServerTask

structure State where
  client : OtaWorker.State
  server : OtaServerTask.State
  toServer : List UInt8
  toClient : List UInt8
  clientClosed : Bool
  serverClosed : Bool

inductive Label
  | client (l : OtaWorker.Label)
  | server (l : OtaServerTask.Label)
  /-- The client's socket is released after `perform_task`. -/
  | clientClose

/-- The server has accepted the client's connection. -/
def connected (server : OtaServerTask.State) (rxBuffer : Nat → UInt8) (file : List UInt8)
    (chunkSize : Nat) : State where
  client := OtaWorker.start file chunkSize
  server := { server with pc := .session, session := OtaRetransmit.start rxBuffer }
  toServer := []
  toClient := []
  clientClosed := false
  serverClosed := false

/-- What the streams allow the client. -/
def clientMay (s : State) : OtaWorker.Label → Prop
  | .recv [] => s.serverClosed = true ∧ s.toClient = []
  | .recv (b :: response) => b :: response <+: s.toClient ∧ (b :: response).length ≤ 1024
  | .timeout => s.serverClosed = false ∧ s.toClient = []
  | .sendall ok => ok = true ∨ s.serverClosed = true
  | .recvError => s.serverClosed = true
  | .openFile _ | .read => True

/-- What the streams allow the server on this connection. -/
def serverMay (s : State) : OtaServerTask.Label → Prop
  | .session (.recv (.data bytes)) => bytes <+: s.toServer
  | .session (.recv .closed) =>
      s.clientClosed = true ∧ s.toServer = [] ∨ s.server.session.dataRead = OtaRetransmit.buffSize
  | .session (.recv .error) => s.clientClosed = true
  | .session _ | .sendAck | .sendVerdict | .closeSession => True
  | .setup _ _ _ | .accept _ _ | .cleanup | .reboot => False

instance (s : State) (l : OtaWorker.Label) : Decidable (clientMay s l) := by
  unfold clientMay
  split <;> infer_instance

instance (s : State) (l : OtaServerTask.Label) : Decidable (serverMay s l) := by
  unfold serverMay
  split <;> infer_instance

/-- What a step of the client does to the streams. -/
def afterClient (s : State) (client : OtaWorker.State) : OtaWorker.Label → State
  | .sendall true => { s with client := client, toServer := s.toServer ++ s.client.chunk }
  | .recv response => { s with client := client, toClient := s.toClient.drop response.length }
  | .sendall false | .timeout | .recvError | .openFile _ | .read => { s with client := client }

/-- What a step of the server does to the streams. -/
def afterServer (s : State) (server : OtaServerTask.State) : OtaServerTask.Label → State
  | .session (.recv (.data bytes)) =>
      { s with server := server, toServer := s.toServer.drop bytes.length }
  | .session .sendAck | .sendAck =>
      { s with server := server, toClient := s.toClient ++ ackBuff }
  | .sendVerdict =>
      { s with server := server, toClient := s.toClient ++ verdict s.server.otaRet }
  | .closeSession => { s with server := server, serverClosed := true }
  | _ => { s with server := server }

def step (p : OtaRetransmit.Platform) (s : State) : Label → Option State
  | .client l =>
      if clientMay s l then (OtaWorker.step s.client l).map fun c => afterClient s c l else none
  | .server l =>
      if serverMay s l ∧ s.serverClosed = false then
        (OtaServerTask.step p s.server l).map fun t => afterServer s t l
      else none
  | .clientClose =>
      if s.client.pc = .done ∧ s.clientClosed = false then some { s with clientClosed := true }
      else none

section Steps
variable {p : OtaRetransmit.Platform} {s t : State}

theorem step_client {l : OtaWorker.Label} (h : step p s (.client l) = some t) :
    clientMay s l ∧ ∃ c, OtaWorker.step s.client l = some c ∧ afterClient s c l = t := by
  simpa only [step, Option.ite_none_right_eq_some, Option.map_eq_some_iff] using h

theorem step_server {l : OtaServerTask.Label} (h : step p s (.server l) = some t) :
    serverMay s l ∧ ∃ u, OtaServerTask.step p s.server l = some u ∧ afterServer s u l = t := by
  simp only [step, Option.ite_none_right_eq_some, Option.map_eq_some_iff] at h
  exact ⟨h.1.1, h.2⟩

theorem step_clientClose (h : step p s .clientClose = some t) :
    s.client.pc = .done ∧ t = { s with clientClosed := true } := by
  simp only [step, Option.ite_none_right_eq_some, Option.some.injEq] at h
  exact ⟨h.1.1, h.2.symm⟩

end Steps

@[simp] theorem afterClient_client (s : State) (c : OtaWorker.State) (l : OtaWorker.Label) :
    (afterClient s c l).client = c := by
  unfold afterClient
  split <;> rfl

@[simp] theorem afterClient_server (s : State) (c : OtaWorker.State) (l : OtaWorker.Label) :
    (afterClient s c l).server = s.server := by
  unfold afterClient
  split <;> rfl

@[simp] theorem afterServer_client (s : State) (t : OtaServerTask.State)
    (l : OtaServerTask.Label) : (afterServer s t l).client = s.client := by
  unfold afterServer
  split <;> rfl

@[simp] theorem afterServer_server (s : State) (t : OtaServerTask.State)
    (l : OtaServerTask.Label) : (afterServer s t l).server = t := by
  unfold afterServer
  split <;> rfl

theorem client_of_server_step {p : OtaRetransmit.Platform} {s t : State}
    {l : OtaServerTask.Label} (h : step p s (.server l) = some t) : t.client = s.client := by
  obtain ⟨_, u, _, rfl⟩ := step_server h
  exact afterServer_client s u l

end InfoGlobe.OtaLink
