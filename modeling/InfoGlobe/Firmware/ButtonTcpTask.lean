import InfoGlobe.Library.FlatMemory
import InfoGlobe.Library.StepSystem
import InfoGlobe.Firmware.MessageType
import InfoGlobe.Firmware.TcpHelpers

/-!
The button port: the packet types, the handler with its table of commands, and the sessions that
feed it. The handler reads the receive buffer at fixed offsets, so what it finds behind a short
packet is left over from earlier ones.
-/

namespace InfoGlobe
open FlatMemory

def packetTypeIndex : Nat := 0
def packetPayloadIndex : Nat := 1
def numOverheadBytes : Nat := 1

def controlCmdByte : UInt8 := 0x36
def buttonCmdByte : UInt8 := 0x76

inductive InfoglobePacketTypes
  | controlPacket | buttonPacket | unknownPacket
  deriving DecidableEq

structure InfoglobePacket where
  packetType : InfoglobePacketTypes
  packetBuff : Nat → UInt8
  packetLen : Nat

def lookupCommandBye (cmdByte : UInt8) : InfoglobePacketTypes :=
  if cmdByte = controlCmdByte then .controlPacket
  else if cmdByte = buttonCmdByte then .buttonPacket
  else .unknownPacket

def formPacketStruct (buffer : Nat → UInt8) (bufferLen : Nat) : InfoglobePacket where
  packetType := lookupCommandBye (buffer packetTypeIndex)
  packetBuff := buffer
  packetLen := bufferLen

namespace ButtonTcpTask

def commandMaxLen : Nat := 64
def numButtons : Nat := 6

/-- `sizeof(rx_buffer)`. -/
def rxBufferLen : Nat := 128

/-- Where row `idx` of `button_command_lut` starts. The memory begins one row before the table,
because a button byte of 0 selects the row -1. -/
def row (idx : Int) : Nat := ((idx + 1) * commandMaxLen).toNat

def tableEnd : Nat := row numButtons

/-- The initializer of `button_command_lut`, rows without one included. -/
def buttonCommandLut : List (List UInt8) :=
  [asciiBytes "qm list", asciiBytes "echo 123", [], [], [], []]

def tableBytes : List UInt8 :=
  buttonCommandLut.flatMap fun cmd => cmd ++ List.replicate (commandMaxLen - cmd.length) 0

def buttonIdx (b : UInt8) : Int :=
  let idx : Int := b.toNat - 1
  if idx ≥ numButtons then 0 else idx

/-- The memory after the packet, and the command text that `run_ssh_task_blocked` is called with. -/
def infoglobePacketHandler (memory rxBuffer : Nat → UInt8) (len : Nat) :
    (Nat → UInt8) × Option (List UInt8) :=
  match (formPacketStruct rxBuffer len).packetType with
  | .controlPacket | .unknownPacket => (memory, none)
  | .buttonPacket =>
      let idx := buttonIdx (rxBuffer packetPayloadIndex)
      if len > 2 + numOverheadBytes ∧ rxBuffer (packetPayloadIndex + 1) = 1 then
        let cmdIdx := packetPayloadIndex + 2
        let cmdLen := strnlen rxBuffer cmdIdx (len - cmdIdx) + 1
        if cmdLen < commandMaxLen then
          (writeAt memory (row idx) (readAt rxBuffer cmdIdx cmdLen), none)
        else (memory, none)
      else (memory, some (cString memory (row idx) (tableEnd - row idx)))

structure State where
  memory : Nat → UInt8
  /-- The `rx_buffer` of the session that is being hosted. -/
  session : Option (Nat → UInt8)
  /-- What `run_ssh_task_blocked` was called with so far. -/
  commands : List (List UInt8)

inductive Label
  /-- The next session starts, with whatever its `rx_buffer` holds. -/
  | accept (rxBuffer : Nat → UInt8)
  | recv (r : RecvResult)

def boot (memory : Nat → UInt8) : State where
  memory := writeAt memory (row 0) tableBytes
  session := none
  commands := []

def step (s : State) : Label → Option State
  | .accept rxBuffer => if s.session.isNone then some { s with session := some rxBuffer } else none
  | .recv r =>
      match s.session with
      | none => none
      | some rxBuffer =>
          if r.within rxBufferLen then
            match r with
            | .data bytes =>
                let rxBuffer := writeAt rxBuffer 0 bytes
                let handled := infoglobePacketHandler s.memory rxBuffer bytes.length
                some { memory := handled.1
                       session := some rxBuffer
                       commands := s.commands ++ handled.2.toList }
            | .closed | .error => some { s with session := none }
          else none

theorem step_recv_data {s : State} {rxBuffer : Nat → UInt8} {bytes : List UInt8}
    (hopen : s.session = some rxBuffer)
    (hwithin : (RecvResult.data bytes).within rxBufferLen = true) :
    step s (.recv (.data bytes)) = some
      { memory := (infoglobePacketHandler s.memory (writeAt rxBuffer 0 bytes) bytes.length).1
        session := some (writeAt rxBuffer 0 bytes)
        commands := s.commands ++
          (infoglobePacketHandler s.memory (writeAt rxBuffer 0 bytes) bytes.length).2.toList } := by
  simp only [step, hopen, hwithin, if_true]

/-! ### The effect of a packet -/

/-- What a packet makes the handler do: store bytes in a row of the table, or run the command of a
row. -/
inductive Effect
  | store (idx : Int) (bytes : List UInt8)
  | run (idx : Int)
  deriving DecidableEq

/-- The decisions of the handler, which do not depend on the table. -/
def effectOf (rxBuffer : Nat → UInt8) (len : Nat) : Option Effect :=
  match (formPacketStruct rxBuffer len).packetType with
  | .controlPacket | .unknownPacket => none
  | .buttonPacket =>
      let idx := buttonIdx (rxBuffer packetPayloadIndex)
      if len > 2 + numOverheadBytes ∧ rxBuffer (packetPayloadIndex + 1) = 1 then
        let cmdIdx := packetPayloadIndex + 2
        let cmdLen := strnlen rxBuffer cmdIdx (len - cmdIdx) + 1
        if cmdLen < commandMaxLen then some (.store idx (readAt rxBuffer cmdIdx cmdLen)) else none
      else some (.run idx)

def Effect.perform (memory : Nat → UInt8) : Effect → (Nat → UInt8) × Option (List UInt8)
  | .store idx bytes => (writeAt memory (row idx) bytes, none)
  | .run idx => (memory, some (cString memory (row idx) (tableEnd - row idx)))

theorem infoglobePacketHandler_eq (memory rxBuffer : Nat → UInt8) (len : Nat) :
    infoglobePacketHandler memory rxBuffer len =
      (effectOf rxBuffer len).elim (memory, none) (Effect.perform memory) := by
  unfold infoglobePacketHandler effectOf
  cases (formPacketStruct rxBuffer len).packetType with
  | controlPacket | unknownPacket => rfl
  | buttonPacket =>
      simp only
      split
      · split <;> rfl
      · rfl

section Handler
variable {rxBuffer : Nat → UInt8} {len : Nat}

theorem lookupCommandBye_ne {cmdByte : UInt8} (h : cmdByte ≠ buttonCmdByte) :
    lookupCommandBye cmdByte ≠ .buttonPacket := by
  by_cases hcontrol : cmdByte = controlCmdByte <;> simp [lookupCommandBye, h, hcontrol]

theorem effectOf_other (htype : rxBuffer 0 ≠ buttonCmdByte) : effectOf rxBuffer len = none := by
  have hne : (formPacketStruct rxBuffer len).packetType ≠ .buttonPacket := lookupCommandBye_ne htype
  unfold effectOf
  cases hpacket : (formPacketStruct rxBuffer len).packetType with
  | controlPacket | unknownPacket => rfl
  | buttonPacket => exact absurd hpacket hne

theorem formPacketStruct_button (htype : rxBuffer 0 = buttonCmdByte) :
    (formPacketStruct rxBuffer len).packetType = .buttonPacket := by
  simp only [formPacketStruct, packetTypeIndex, htype]
  rfl

/-- What a configuration packet does: it stores a command that fits, and runs nothing. -/
theorem effectOf_config (htype : rxBuffer 0 = buttonCmdByte) (hlen : 3 < len)
    (hflag : rxBuffer 2 = 1) :
    effectOf rxBuffer len =
      if strnlen rxBuffer 3 (len - 3) + 1 < commandMaxLen then
        some (.store (buttonIdx (rxBuffer 1))
          (readAt rxBuffer 3 (strnlen rxBuffer 3 (len - 3) + 1)))
      else none := by
  have hconfig : len > 2 + numOverheadBytes ∧ rxBuffer (packetPayloadIndex + 1) = 1 := ⟨hlen, hflag⟩
  simp only [effectOf, formPacketStruct_button htype]
  exact if_pos hconfig

/-- Every other button packet runs the command of its row. -/
theorem effectOf_press (htype : rxBuffer 0 = buttonCmdByte) (hpress : ¬(3 < len ∧ rxBuffer 2 = 1)) :
    effectOf rxBuffer len = some (.run (buttonIdx (rxBuffer 1))) := by
  simp only [effectOf, formPacketStruct_button htype]
  exact if_neg hpress

end Handler

/-- A packet concerns the row of its button byte only, and stores less than a row. -/
theorem effectOf_cases (rxBuffer : Nat → UInt8) (len : Nat) :
    effectOf rxBuffer len = none ∨
      (∃ bytes : List UInt8, bytes.length < commandMaxLen ∧
        effectOf rxBuffer len = some (.store (buttonIdx (rxBuffer packetPayloadIndex)) bytes)) ∨
      effectOf rxBuffer len = some (.run (buttonIdx (rxBuffer packetPayloadIndex))) := by
  unfold effectOf
  cases (formPacketStruct rxBuffer len).packetType with
  | controlPacket | unknownPacket => exact .inl rfl
  | buttonPacket =>
      simp only
      by_cases hstore : len > 2 + numOverheadBytes ∧ rxBuffer (packetPayloadIndex + 1) = 1
      · rw [if_pos hstore]
        by_cases hfits : strnlen rxBuffer (packetPayloadIndex + 2)
            (len - (packetPayloadIndex + 2)) + 1 < commandMaxLen
        · rw [if_pos hfits]
          exact .inr (.inl ⟨_, by rwa [length_readAt], rfl⟩)
        · exact .inl (if_neg hfits)
      · exact .inr (.inr (if_neg hstore))

theorem buttonIdx_of_le {b : UInt8} (h : b.toNat ≤ numButtons) : buttonIdx b = b.toNat - 1 := by
  have hlt : ¬(b.toNat : Int) - 1 ≥ numButtons := by omega
  simp only [buttonIdx, if_neg hlt]

theorem row_buttonIdx {b : UInt8} (h : b.toNat ≤ numButtons) :
    row (buttonIdx b) = b.toNat * commandMaxLen := by
  rw [buttonIdx_of_le h]
  unfold row commandMaxLen
  omega

theorem buttonIdx_range (b : UInt8) : -1 ≤ buttonIdx b ∧ buttonIdx b < numButtons := by
  unfold buttonIdx numButtons
  simp only
  split <;> omega

theorem buttonIdx_nonneg {b : UInt8} (h : b ≠ 0) : 0 ≤ buttonIdx b := by
  have hpos : b.toNat ≠ 0 := fun hzero => h (UInt8.toNat_inj.mp hzero)
  unfold buttonIdx
  simp only
  split <;> omega

end ButtonTcpTask

end InfoGlobe
