import InfoGlobe.Ssh.StringBuf

/-!
Reading from a channel. What the server sends is queued in packets until it is read; a window says
how much it may send, and grows again as the data is read. A message that makes it grow may have to
wait in the middle of a call, which then goes on with it in the next one.
-/

namespace InfoGlobe.Ssh
open CheckedBlock WireFormat

def channelWindowAdjust : UInt8 := 93
def channelData : UInt8 := 94
def channelExtendedData : UInt8 := 95
def channelEof : UInt8 := 96
def channelClose : UInt8 := 97

/-- `LIBSSH2_CHANNEL_MINADJUST`. -/
def minAdjust : Nat := 1024

/-- `LIBSSH2_PACKET`; `data_len` is the length of the data. -/
structure Packet where
  data : List UInt8
  dataHead : Nat

/-- The receiving side of `LIBSSH2_CHANNEL`. Extended data is kept apart or merged; nothing asks for
it to be ignored. The counters have 32 bits. -/
structure Channel where
  localId : UInt32
  remoteId : UInt32
  windowSizeInitial : Nat
  windowSize : Nat
  packetSize : Nat
  eof : Bool
  close : Bool
  merge : Bool
  readAvail : Nat
  adjustQueue : Nat
  adjustCreated : Bool
  adjustAdjust : List UInt8
  readJump : Bool

/-- The session with its one channel and its queue of packets. -/
structure ChannelSession where
  channel : Channel
  packets : List Packet

/-! ### The window -/

/-- What becomes of a message that is sent. -/
inductive Sending where
  | sent
  | again
  | failed
  deriving DecidableEq

inductive AdjustCode where
  | ok
  | eagain
  | socketSend
  deriving DecidableEq

/-- A return code, the channel and the message that has been sent. -/
abbrev Adjusted := AdjustCode × Channel × Option (List UInt8)

def sendAdjust (channel : Channel) (adjustment : Nat) : Sending → Adjusted
  | .again => (.eagain, channel, none)
  | .failed => (.socketSend, { channel with adjustQueue := adjustment }, none)
  | .sent =>
      (.ok, { channel with
          windowSize := sizeT (channel.windowSize + adjustment)
          adjustCreated := false }, some channel.adjustAdjust)

def adjustMessage (remoteId : UInt32) (adjustment : Nat) : List UInt8 :=
  channelWindowAdjust :: (htonu32 remoteId ++ htonu32 (UInt32.ofNat adjustment))

def receiveWindowAdjust (channel : Channel) (adjustment : Nat) (force : Bool) (sending : Sending) :
    Adjusted :=
  if channel.adjustCreated then sendAdjust channel adjustment sending
  else if force = false ∧ sizeT (adjustment + channel.adjustQueue) < minAdjust then
    (.ok, { channel with adjustQueue := sizeT (channel.adjustQueue + adjustment) }, none)
  else if adjustment = 0 ∧ channel.adjustQueue = 0 then (.ok, channel, none)
  else
    sendAdjust { channel with
      adjustQueue := 0
      adjustAdjust := adjustMessage channel.remoteId (sizeT (adjustment + channel.adjustQueue))
      adjustCreated := true } (sizeT (adjustment + channel.adjustQueue)) sending

/-! ### Packets that come in -/

/-- The data of a packet begins at `data_head`. What is more than the window or a packet may have is
cut off. -/
def packetAddData (s : ChannelSession) (data : List UInt8) (dataHead : Nat) :
    Access ChannelSession :=
  if data.length < dataHead then some s
  else
    (ntohu32 data 1).map fun id =>
      let channel := s.channel
      if id ≠ channel.localId then s
      else
        let datalen :=
          if channel.packetSize < data.length - dataHead then channel.packetSize + dataHead
          else data.length
        if channel.windowSize ≤ channel.readAvail then s
        else
          let datalen :=
            if channel.windowSize < sizeT (channel.readAvail + datalen - dataHead) then
              sizeT (channel.windowSize - channel.readAvail + dataHead)
            else datalen
          { channel := { channel with
              eof := false
              readAvail := sizeT (channel.readAvail + datalen - dataHead) }
            packets := s.packets ++ [⟨data.take datalen, dataHead⟩] }

/-- The channel that a message is about, where it is long enough to name one. -/
def namesChannel (s : ChannelSession) (data : List UInt8) : Access Bool :=
  if 5 ≤ data.length then (ntohu32 data 1).map (· == s.channel.localId) else some false

/-- Messages that are answered or taken at once; they leave the fields of the channel alone. Where
an answer fails or has to wait, the message is the last one of its call. -/
def takenAtOnce : List UInt8 := [2, 4, 7, 80, 90, 93, 98]

/-- A packet is added to the queue, or taken. A packet has at least the byte of its type; one that
ends the connection is an error. -/
def packetAdd (s : ChannelSession) (data : List UInt8) : Access (Option ChannelSession) :=
  (load data 0).bind fun msg =>
    if msg = 1 then some none
    else if msg = channelExtendedData then (packetAddData s data 13).map some
    else if msg = channelData then (packetAddData s data 9).map some
    else if msg = channelEof then
      (namesChannel s data).map fun named =>
        some (if named then { s with channel := { s.channel with eof := true } } else s)
    else if msg = channelClose then
      (namesChannel s data).map fun named =>
        some (if named then { s with channel := { s.channel with close := true, eof := true } }
          else s)
    else if takenAtOnce.contains msg then some (some s)
    else some (some { s with packets := s.packets ++ [⟨data, 0⟩] })

/-! ### Reading -/

/-- Whether a packet belongs to the stream that is read. -/
def wanted (channel : Channel) (streamId : UInt32) (p : Packet) : Access Bool :=
  if p.data.length < 5 then some false
  else do
    let id ← ntohu32 p.data 1
    let msg ← load p.data 0
    if msg = channelExtendedData ∧ id = channel.localId then
      if streamId = 0 then some channel.merge
      else if 9 ≤ p.data.length then (ntohu32 p.data 5).map (streamId == ·)
      else some false
    else some (decide (streamId = 0 ∧ msg = channelData ∧ id = channel.localId))

/-- The loop over the packets, `buf` being what has been copied into the buffer of the caller. -/
def readPackets (channel : Channel) (streamId : UInt32) (buflen : Nat) (buf : List UInt8) :
    List Packet → Access (List UInt8 × List Packet)
  | [] => some (buf, [])
  | p :: packets =>
      if buf.length < buflen then
        (wanted channel streamId p).bind fun want =>
          if want then
            let left := p.data.length - p.dataHead
            if left ≤ buflen - buf.length then
              (loadMany p.data p.dataHead left).bind fun bytes =>
                readPackets channel streamId buflen (buf ++ bytes) packets
            else
              (loadMany p.data p.dataHead (buflen - buf.length)).bind fun bytes =>
                (readPackets channel streamId buflen (buf ++ bytes) packets).map fun r =>
                  (r.1, { p with dataHead := p.dataHead + (buflen - buf.length) } :: r.2)
          else
            (readPackets channel streamId buflen buf packets).map fun r => (r.1, p :: r.2)
      else some (buf, p :: packets)

/-- What the last call of `_libssh2_transport_read` returns. -/
inductive LastRead where
  | again
  | nothing
  | failed
  deriving DecidableEq

inductive ReadCode where
  | bytes (buf : List UInt8)
  | eagain
  | error
  deriving DecidableEq

/-- The calls of `_libssh2_transport_read`: whether they go on well, and what they have left. -/
def transportReads (s : ChannelSession) :
    List (List UInt8) → Access (ChannelSession × Bool × List (List UInt8))
  | [] => some (s, true, [])
  | data :: incoming =>
      (packetAdd s data).bind fun
        | none => some (s, false, incoming)
        | some s => transportReads s incoming

/-- What a call of `_libssh2_channel_read` returns, the message that it has sent, and the packets
that it has not taken. -/
structure ReadOut where
  code : ReadCode
  session : ChannelSession
  message : Option (List UInt8)
  rest : List (List UInt8)

/-- Whether the window has become too narrow. -/
def narrow (channel : Channel) (buflen : Nat) : Prop :=
  channel.readJump = true ∨
    channel.windowSize < sizeT (channel.windowSizeInitial / 4 * 3 + buflen)

instance (channel : Channel) (buflen : Nat) : Decidable (narrow channel buflen) :=
  inferInstanceAs (Decidable (_ ∨ _))

/-- By how much the window is to grow. -/
def expansion (channel : Channel) (buflen : Nat) : Nat :=
  let adjustment := sizeT (channel.windowSizeInitial + buflen - channel.windowSize)
  if adjustment < minAdjust then minAdjust else adjustment

/-- The part behind the window: packets come in and are read from. -/
def readQueue (s : ChannelSession) (message : Option (List UInt8)) (streamId : UInt32)
    (buflen : Nat) (incoming : List (List UInt8)) (last : LastRead) : Access ReadOut :=
  (transportReads s incoming).bind fun (s, well, rest) =>
    if well = false ∨ last = .failed then some ⟨.error, s, message, rest⟩
    else
      (readPackets s.channel streamId buflen [] s.packets).map fun (buf, packets) =>
        if buf = [] then
          let code :=
            if s.channel.eof = true ∨ s.channel.close = true ∨ last ≠ .again then .bytes []
            else .eagain
          ⟨code, { s with packets := packets }, message, rest⟩
        else
          let channel := { s.channel with
            readAvail := sizeT (s.channel.readAvail - buf.length)
            windowSize := sizeT (s.channel.windowSize - buf.length) }
          ⟨.bytes buf, { channel := channel, packets := packets }, message, rest⟩

def channelRead (s : ChannelSession) (streamId : UInt32) (buflen : Nat) (sending : Sending)
    (incoming : List (List UInt8)) (last : LastRead) : Access ReadOut :=
  if narrow s.channel buflen then
    let adjusted := receiveWindowAdjust { s.channel with readJump := true }
      (expansion s.channel buflen) false sending
    match adjusted.1 with
    | .ok =>
        readQueue { s with channel := { adjusted.2.1 with readJump := false } } adjusted.2.2
          streamId buflen incoming last
    | .eagain => some ⟨.eagain, { s with channel := adjusted.2.1 }, none, incoming⟩
    | .socketSend => some ⟨.error, { s with channel := adjusted.2.1 }, none, incoming⟩
  else readQueue s none streamId buflen incoming last

/-- One attempt of `libssh2_channel_read_ex`, with the message that makes the window as wide as the
buffer where that has been sent. -/
def channelReadEx (s : ChannelSession) (streamId : UInt32) (buflen : Nat) (forced sending : Sending)
    (incoming : List (List UInt8)) (last : LastRead) : Access (Option (List UInt8) × ReadOut) :=
  if s.channel.windowSize < buflen then
    let adjusted := receiveWindowAdjust s.channel buflen true forced
    match adjusted.1 with
    | .ok =>
        (channelRead { s with channel := adjusted.2.1 } streamId buflen sending incoming last).map
          (adjusted.2.2, ·)
    | .eagain => some (none, ⟨.eagain, { s with channel := adjusted.2.1 }, none, incoming⟩)
    | .socketSend => some (none, ⟨.error, { s with channel := adjusted.2.1 }, none, incoming⟩)
  else (channelRead s streamId buflen sending incoming last).map (none, ·)

end InfoGlobe.Ssh
