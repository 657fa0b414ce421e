import Mathlib.Data.List.Basic

/-!
What the servers see of the socket layer: the results of `recv`, and the descriptor that
`setup_tcp_socket` makes of the results of `socket`, `bind` and `listen`.
-/

namespace InfoGlobe

/-- A positive, zero or negative result of `recv`. -/
inductive RecvResult
  | data (bytes : List UInt8)
  | closed
  | error
  deriving DecidableEq

/-- `recv` delivers at least one byte and at most the requested number. -/
def RecvResult.within (capacity : Int) : RecvResult → Bool
  | .data bytes => decide (1 ≤ bytes.length ∧ (bytes.length : Int) ≤ capacity)
  | .closed | .error => true

theorem RecvResult.within_data {capacity : Int} {bytes : List UInt8} :
    (RecvResult.data bytes).within capacity = true ↔
      1 ≤ bytes.length ∧ (bytes.length : Int) ≤ capacity := by
  simp [RecvResult.within]

/-- `setup_tcp_socket`: the listening descriptor, -1 without a socket, -2 with a socket that could
not be bound or listened on. -/
def setupTcpSocket (socket bindErr listenErr : Int) : Int :=
  if socket < 0 then -1
  else if bindErr ≠ 0 then -2
  else if listenErr ≠ 0 then -2
  else socket

theorem setupTcpSocket_pos_iff (socket bindErr listenErr : Int) :
    0 < setupTcpSocket socket bindErr listenErr ↔ 0 < socket ∧ bindErr = 0 ∧ listenErr = 0 := by
  unfold setupTcpSocket
  split
  · omega
  · split
    · omega
    · split <;> omega

end InfoGlobe
