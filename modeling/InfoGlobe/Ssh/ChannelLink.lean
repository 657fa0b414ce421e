import InfoGlobe.Ssh.ChannelWindow

/-!
A channel and the server at its other end. The server sends no more than the window that it knows
of, which grows when it hears of it; so nothing that it sends is cut off, and every stream is read
as it has been sent.
-/

namespace InfoGlobe.Ssh
open CheckedBlock WireFormat StepSystem

/-! ### The server -/

/-- A message of a server: data for a stream, or one that has no data. -/
inductive ServerMessage where
  | data (streamId : UInt32) (bytes : List UInt8)
  | other (message : List UInt8)

/-- The message that the client gets. -/
def ServerMessage.encode (localId : UInt32) : ServerMessage → List UInt8
  | .data streamId bytes =>
      if streamId = 0 then
        channelData :: (htonu32 localId ++ (htonu32 (UInt32.ofNat bytes.length) ++ bytes))
      else
        channelExtendedData :: (htonu32 localId ++
          (htonu32 streamId ++ (htonu32 (UInt32.ofNat bytes.length) ++ bytes)))
  | .other message => message

def ServerMessage.size : ServerMessage → Nat
  | .data _ bytes => bytes.length
  | .other _ => 0

/-- What a message brings for a stream. -/
def ServerMessage.on (streamId : UInt32) : ServerMessage → List UInt8
  | .data sid bytes => if sid = streamId then bytes else []
  | .other _ => []

/-- Messages that have data or after which the connection is another one. -/
def special : List UInt8 := [1, kexInit, channelData, channelExtendedData]

/-- A message that a server may send over a channel whose packets have a certain size. -/
def ServerMessage.Proper (packetSize : Nat) : ServerMessage → Prop
  | .data _ bytes => bytes.length ≤ packetSize
  | .other message => ∃ msg tail, message = msg :: tail ∧ msg ∉ special

/-- How much a message for the window grants. -/
def grantOf (message : List UInt8) : Nat := readBig ((message.drop 5).take 4)

/-- The client and the server with what is on its way between them. `sent` and `got` keep what has
been sent and read, with the stream that it was for. -/
structure Link where
  client : ChannelSession
  serverWindow : Nat
  toClient : List ServerMessage
  toServer : List (List UInt8)
  sent : List (UInt32 × List UInt8)
  got : List (UInt32 × List UInt8)

inductive LinkStep where
  | send (streamId : UInt32) (bytes : List UInt8)
  | tell (msg : UInt8) (tail : List UInt8)
  | hear
  | read (streamId : UInt32) (forced sending : Sending) (arriving : Nat) (last : LastRead)

/-- What the client gets while it reads. -/
def Link.incoming (link : Link) (arriving : Nat) : List (List UInt8) :=
  (link.toClient.take arriving).map (ServerMessage.encode link.client.channel.localId)

/-- The link after a call that has returned. -/
def Link.after (link : Link) (streamId : UInt32) (arriving : Nat)
    (r : Option (List UInt8) × ReadOut) : Link :=
  { link with
    client := r.2.session
    toClient := link.toClient.drop (arriving - r.2.rest.length)
    toServer := link.toServer ++ (r.1.toList ++ r.2.message.toList)
    got := link.got ++ [(streamId, r.2.code.buf)] }

def linkStep (buflen : Nat) (link : Link) : LinkStep → Option Link
  | .send streamId bytes =>
      if bytes.length ≤ link.serverWindow ∧ bytes.length ≤ link.client.channel.packetSize then
        some { link with
          serverWindow := link.serverWindow - bytes.length
          toClient := link.toClient ++ [.data streamId bytes]
          sent := link.sent ++ [(streamId, bytes)] }
      else none
  | .tell msg tail =>
      if special.contains msg then none
      else some { link with toClient := link.toClient ++ [.other (msg :: tail)] }
  | .hear =>
      match link.toServer with
      | [] => none
      | message :: messages =>
          some { link with
            serverWindow := link.serverWindow + grantOf message
            toServer := messages }
  | .read streamId forced sending arriving last =>
      if arriving ≤ link.toClient.length then
        (channelReadEx link.client streamId buflen forced sending (link.incoming arriving) last).map
          (link.after streamId arriving)
      else none

/-- The bytes of a stream in what has been sent or read. -/
def bytesOn (streamId : UInt32) (log : List (UInt32 × List UInt8)) : List UInt8 :=
  log.flatMap fun e => if e.1 = streamId then e.2 else []

/-- The bytes of a stream that are on their way. -/
def flying (streamId : UInt32) (messages : List ServerMessage) : List UInt8 :=
  messages.flatMap (ServerMessage.on streamId)

/-! ### Messages that come in -/

section Arrivals
variable {buflen : Nat} {s t : ChannelSession}

/-- Packets with `n` bytes of data have come in. -/
structure Brings (s t : ChannelSession) (n : Nat) (bytes : UInt32 → List UInt8) : Prop where
  arrives : Arrives s t
  avail : t.channel.readAvail = s.channel.readAvail + n
  queued : ∀ streamId, queuedBytes false streamId t.packets =
    queuedBytes false streamId s.packets ++ bytes streamId

theorem queuedBytes_append (streamId : UInt32) (packets more : List Packet) :
    queuedBytes false streamId (packets ++ more) =
      queuedBytes false streamId packets ++ queuedBytes false streamId more :=
  List.flatMap_append

theorem queuedBytes_singleton (streamId : UInt32) (p : Packet) :
    queuedBytes false streamId [p] =
      if p.belongs false streamId then p.data.drop p.dataHead else [] := by
  rw [queuedBytes_cons]
  exact List.append_nil _

theorem length_htonu32 (value : UInt32) : (htonu32 value).length = 4 := by
  rw [htonu32_eq, length_bigEndian]

theorem readBig_htonu32 (value : UInt32) : readBig (htonu32 value) = value.toNat := by
  rw [htonu32_eq, readBig_bigEndian value.toNat_lt]

theorem ntohu32_htonu32 (msg : UInt8) (value : UInt32) (rest : List UInt8) :
    ntohu32 (msg :: (htonu32 value ++ rest)) 1 = some value := by
  rw [ntohu32_of_drop rfl (length_htonu32 value), readBig_htonu32, UInt32.ofNat_toNat]

theorem length_encode (localId streamId : UInt32) (bytes : List UInt8) :
    (ServerMessage.encode localId (.data streamId bytes)).length =
      (if streamId = 0 then 9 else 13) + bytes.length := by
  rw [ServerMessage.encode]
  split <;> simp only [List.length_cons, List.length_append, length_htonu32] <;> omega

theorem drop_encode (localId streamId : UInt32) (bytes : List UInt8) :
    (ServerMessage.encode localId (.data streamId bytes)).drop (if streamId = 0 then 9 else 13) =
      bytes := by
  rw [ServerMessage.encode]
  split <;> rfl

theorem id_encode (localId streamId : UInt32) (bytes : List UInt8) :
    ntohu32 (ServerMessage.encode localId (.data streamId bytes)) 1 = some localId := by
  rw [ServerMessage.encode]
  split <;> exact ntohu32_htonu32 _ _ _

/-- A message belongs to the stream that it has been sent on. -/
theorem belongs_encode (localId streamId other : UInt32) (bytes : List UInt8) (dataHead : Nat) :
    Packet.belongs false other ⟨ServerMessage.encode localId (.data streamId bytes), dataHead⟩ =
      decide (streamId = other) := by
  rw [Packet.belongs, ServerMessage.encode]
  by_cases hzero : streamId = 0
  · subst hzero
    have hnot : ¬channelData = channelExtendedData := by decide
    simp only [if_true, List.head?_cons, Option.some.injEq, hnot, if_false, beq_self_eq_true,
      Bool.and_true]
    rw [Bool.eq_iff_iff, beq_iff_eq, decide_eq_true_iff]
    exact eq_comm
  · have hcode : ((channelExtendedData :: (htonu32 localId ++ (htonu32 streamId ++
        (htonu32 (UInt32.ofNat bytes.length) ++ bytes)))).drop 5).take 4 = htonu32 streamId := rfl
    simp only [hzero, if_false, List.head?_cons, if_true, hcode, readBig_htonu32]
    by_cases hother : other = 0
    · rw [if_pos hother, hother]
      exact (decide_eq_false hzero).symm
    · rw [if_neg hother, Bool.eq_iff_iff, beq_iff_eq, decide_eq_true_iff, UInt32.toNat_inj]

theorem encode_ne_nil (localId streamId : UInt32) (bytes : List UInt8) :
    ServerMessage.encode localId (.data streamId bytes) ≠ [] := by
  rw [ServerMessage.encode]
  split <;> exact List.cons_ne_nil _ _

/-- Data for which there is room is queued as a whole. -/
theorem packetAdd_data (h : Sound buflen s) {streamId : UInt32} {bytes : List UInt8}
    (hsize : bytes.length ≤ s.channel.packetSize)
    (hroom : s.channel.readAvail + bytes.length ≤ s.channel.windowSize) :
    ∃ t, packetAdd s (ServerMessage.encode s.channel.localId (.data streamId bytes)) =
        some (some t) ∧ Sound buflen t ∧
      Brings s t bytes.length fun other => ServerMessage.on other (.data streamId bytes) := by
  obtain ⟨r, hr, hkeep⟩ := packetAdd_sound h (encode_ne_nil s.channel.localId streamId bytes)
  have hadd : packetAdd s (ServerMessage.encode s.channel.localId (.data streamId bytes)) =
      (packetAddData s (ServerMessage.encode s.channel.localId (.data streamId bytes))
        (if streamId = 0 then 9 else 13)).map some := by
    rw [packetAdd, ServerMessage.encode]
    split <;> rfl
  have hlen := length_encode s.channel.localId streamId bytes
  have hdrop := drop_encode s.channel.localId streamId bytes
  have hid := id_encode s.channel.localId streamId bytes
  have hbelongs := fun other => belongs_encode s.channel.localId streamId other bytes
    (if streamId = 0 then 9 else 13)
  have hhead : (if streamId = 0 then 9 else 13) ≤ 13 := by split <;> decide
  generalize ServerMessage.encode s.channel.localId (.data streamId bytes) = data at *
  generalize (if streamId = 0 then 9 else 13) = dataHead at *
  have hdata : data.length - dataHead = bytes.length := by omega
  have haccepted : accepted s.channel bytes.length = bytes.length := by
    rw [accepted]
    omega
  have hwhole : data.take (dataHead + bytes.length) = data :=
    List.take_of_length_le (Nat.le_of_eq hlen)
  rw [packetAddData_eq h hhead (by omega) hid, hdata, haccepted, hwhole, Option.map_some] at hadd
  rw [hadd, Option.some.injEq] at hr
  subst hr
  obtain ⟨ht, harr⟩ := hkeep _ rfl
  refine ⟨_, hadd, ht, harr, ?_, fun other => ?_⟩
  · split
    · omega
    · rfl
  · rw [ServerMessage.on]
    split
    · have hnil : bytes = [] := List.length_eq_zero_iff.mp (by omega)
      rw [hnil, ite_self, List.append_nil]
    · rw [queuedBytes_append, queuedBytes_singleton, hbelongs other, hdrop]
      simp only [decide_eq_true_eq]

/-- A message without data leaves the streams as they are. -/
theorem packetAdd_other (h : Sound buflen s) {msg : UInt8} {tail : List UInt8}
    (hmsg : msg ∉ special) :
    ∃ t, packetAdd s (msg :: tail) = some (some t) ∧ Sound buflen t ∧
      Brings s t 0 fun _ => [] := by
  obtain ⟨r, hr, hkeep⟩ := packetAdd_sound h (List.cons_ne_nil msg tail)
  obtain ⟨named, hnamed⟩ := namesChannel_some s (msg :: tail)
  simp only [special, List.mem_cons, List.not_mem_nil, or_false, not_or] at hmsg
  obtain ⟨hlast, -, hdata, hext⟩ := hmsg
  have hbelongs : ∀ other, Packet.belongs false other ⟨msg :: tail, 0⟩ = false := fun other => by
    simp [Packet.belongs, hdata, hext]
  have hload : load (msg :: tail) 0 = some msg := rfl
  have hrest : ∃ t, r = some t ∧ t.channel.readAvail = s.channel.readAvail ∧
      (t.packets = s.packets ∨ t.packets = s.packets ++ [⟨msg :: tail, 0⟩]) := by
    rw [packetAdd, hload, Option.bind_some, if_neg hlast, if_neg hext, if_neg hdata] at hr
    split at hr
    · rw [hnamed] at hr
      obtain rfl := Option.some.inj hr
      refine ⟨_, rfl, ?_⟩
      split <;> exact ⟨rfl, .inl rfl⟩
    · split at hr
      · rw [hnamed] at hr
        obtain rfl := Option.some.inj hr
        refine ⟨_, rfl, ?_⟩
        split <;> exact ⟨rfl, .inl rfl⟩
      · split at hr
        · obtain rfl := Option.some.inj hr
          exact ⟨s, rfl, rfl, .inl rfl⟩
        · obtain rfl := Option.some.inj hr
          exact ⟨_, rfl, rfl, .inr rfl⟩
  obtain ⟨t, rfl, havail, hpackets⟩ := hrest
  obtain ⟨ht, harr⟩ := hkeep t rfl
  refine ⟨t, hr, ht, harr, havail, fun other => ?_⟩
  rcases hpackets with heq | heq
  · rw [heq, List.append_nil]
  · rw [heq, queuedBytes_append, queuedBytes_singleton, hbelongs other]
    rfl

theorem Brings.trans {u : ChannelSession} {m n : Nat} {bytes more : UInt32 → List UInt8}
    (h : Brings s t m bytes) (h' : Brings t u n more) :
    Brings s u (m + n) fun streamId => bytes streamId ++ more streamId :=
  ⟨h.arrives.trans h'.arrives, by rw [h'.avail, h.avail, Nat.add_assoc], fun streamId => by
    rw [h'.queued, h.queued, List.append_assoc]⟩

theorem flying_cons (streamId : UInt32) (m : ServerMessage) (messages : List ServerMessage) :
    flying streamId (m :: messages) = m.on streamId ++ flying streamId messages :=
  List.flatMap_cons

/-- Messages for which there is room bring all that they have. -/
theorem transportReads_brings (h : Sound buflen s) {messages : List ServerMessage}
    (hproper : ∀ m ∈ messages, m.Proper s.channel.packetSize)
    (hroom : s.channel.readAvail + total ServerMessage.size messages ≤ s.channel.windowSize) :
    ∃ t, transportReads s (messages.map (ServerMessage.encode s.channel.localId)) =
        some (t, true, []) ∧ Sound buflen t ∧
      Brings s t (total ServerMessage.size messages) fun streamId => flying streamId messages := by
  induction messages generalizing s with
  | nil =>
      exact ⟨s, rfl, h, Arrives.refl s, rfl, fun _ => (List.append_nil _).symm⟩
  | cons m messages ih =>
      rw [total] at hroom
      have hfirst : ∃ t, packetAdd s (m.encode s.channel.localId) = some (some t) ∧
          Sound buflen t ∧ Brings s t m.size fun streamId => m.on streamId := by
        have hm := hproper m List.mem_cons_self
        cases m with
        | data streamId bytes =>
            rw [ServerMessage.size] at hroom
            exact packetAdd_data h hm (by omega)
        | other message =>
            obtain ⟨msg, tail, rfl, hmsg⟩ := hm
            exact packetAdd_other h hmsg
      obtain ⟨t, hadd, ht, hbrings⟩ := hfirst
      obtain ⟨⟨eof, close, readAvail, heq⟩, -⟩ := hbrings.arrives
      have hid : t.channel.localId = s.channel.localId := by rw [heq]
      have hpacket : t.channel.packetSize = s.channel.packetSize := by rw [heq]
      have hwindow : t.channel.windowSize = s.channel.windowSize := by rw [heq]
      obtain ⟨u, hreads, hu, hrest⟩ := ih ht (by
          rw [hpacket]
          exact fun n hn => hproper n (List.mem_cons_of_mem m hn)) (by
          rw [hwindow, hbrings.avail]
          omega)
      rw [hid] at hreads
      refine ⟨u, ?_, hu, ?_⟩
      · rw [List.map_cons, transportReads, hadd, Option.bind_some]
        exact hreads
      · have hboth := hbrings.trans hrest
        simpa only [total, flying_cons] using hboth

end Arrivals

/-! ### The link -/

/-- What holds of a client and its server. The window of the client is shared out to what it has
queued, what the server may still send and what is on its way in either direction. -/
structure Linked (buflen : Nat) (link : Link) : Prop where
  within : Within buflen link.client
  apart : link.client.channel.merge = false
  proper : ∀ m ∈ link.toClient, m.Proper link.client.channel.packetSize
  credit : link.client.channel.windowSize = link.client.channel.readAvail + link.serverWindow +
    total grantOf link.toServer + total ServerMessage.size link.toClient
  streams : ∀ streamId, bytesOn streamId link.sent = bytesOn streamId link.got ++
    (queuedBytes false streamId link.client.packets ++ flying streamId link.toClient)

section Linking
variable {buflen : Nat} {link : Link} {streamId : UInt32}

theorem grantOf_adjustMessage (remoteId : UInt32) {n : Nat} (hn : n < 2 ^ 32) :
    grantOf (adjustMessage remoteId n) = n := by
  have hfield : ((adjustMessage remoteId n).drop 5).take 4 = htonu32 (UInt32.ofNat n) := rfl
  rw [grantOf, hfield, readBig_htonu32, UInt32.toNat_ofNat', Nat.mod_eq_of_lt hn]

theorem bytesOn_append_singleton (streamId : UInt32) (log : List (UInt32 × List UInt8))
    (e : UInt32 × List UInt8) :
    bytesOn streamId (log ++ [e]) = bytesOn streamId log ++ if e.1 = streamId then e.2 else [] := by
  rw [bytesOn, List.flatMap_append, List.flatMap_singleton]
  rfl

theorem flying_append (streamId : UInt32) (messages more : List ServerMessage) :
    flying streamId (messages ++ more) = flying streamId messages ++ flying streamId more :=
  List.flatMap_append

/-- What no call changes. -/
structure Keeps (channel channel' : Channel) : Prop where
  localId : channel'.localId = channel.localId
  packetSize : channel'.packetSize = channel.packetSize
  initial : channel'.windowSizeInitial = channel.windowSizeInitial
  merge : channel'.merge = channel.merge

/-- What a call has done: `messages` have come in, it has read from what is queued then, and has
made the window wider by `granted`. -/
structure Delivered (buflen : Nat) (streamId : UInt32) (client : ChannelSession)
    (messages : List ServerMessage) (granted : Nat) (out : ReadOut) : Prop where
  sound : Sound buflen out.session
  keeps : Keeps client.channel out.session.channel
  window : out.session.channel.windowSize + out.code.buf.length =
    client.channel.windowSize + granted
  avail : out.session.channel.readAvail + out.code.buf.length =
    client.channel.readAvail + total ServerMessage.size messages
  stream : queuedBytes false streamId client.packets ++ flying streamId messages =
    out.code.buf ++ queuedBytes false streamId out.session.packets
  others : ∀ other, other ≠ streamId → queuedBytes false other client.packets ++
    flying other messages = queuedBytes false other out.session.packets
  inside : out.code.buf.length ≤ buflen
  drained : out.code = .bytes out.code.buf → out.code.buf.length < buflen →
    queuedBytes false streamId out.session.packets = []

/-- The part of a call behind the window, where there is room for the messages. -/
theorem readQueue_delivered {s : ChannelSession} (streamId : UInt32) (h : Sound buflen s)
    (hapart : s.channel.merge = false) (hidle : s.channel.readJump = false)
    (hwide : s.channel.windowSizeInitial / 4 * 3 + buflen ≤ s.channel.windowSize)
    {messages : List ServerMessage} (hproper : ∀ m ∈ messages, m.Proper s.channel.packetSize)
    (hroom : s.channel.readAvail + total ServerMessage.size messages ≤ s.channel.windowSize)
    (message : Option (List UInt8)) (last : LastRead) :
    ∃ out, readQueue s message streamId buflen
        (messages.map (ServerMessage.encode s.channel.localId)) last = some out ∧
      out.message = message ∧ out.rest = [] ∧ Delivered buflen streamId s messages 0 out := by
  obtain ⟨t, hreads, ht, harrives, havail, hqueued⟩ := transportReads_brings h hproper hroom
  obtain ⟨⟨eof, close, readAvail, heq⟩, -⟩ := harrives
  obtain ⟨out, hout, hread, hmessage, hrest⟩ := readQueue_reads streamId ht
    (by rw [heq]; exact hidle) (by rw [heq]; exact hwide) hreads message last
  have htaken := hread.taken
  have hdrained := hread.drained
  have hmerge : t.channel.merge = false := by rw [heq]; exact hapart
  have hwindow : t.channel.windowSize = s.channel.windowSize := by rw [heq]
  rw [hmerge] at htaken hdrained
  have hleft := htaken.left
  rw [← ht.avail] at hleft
  have hwithin := ht.within
  refine ⟨out, hout, hmessage, hrest, hread.sound, ?_, ?_, ?_, ?_, ?_, hread.inside, hdrained⟩
  · rw [hread.channel, heq]
    exact ⟨rfl, rfl, rfl, rfl⟩
  · rw [hread.channel]
    show t.channel.windowSize - out.code.buf.length + out.code.buf.length = _
    omega
  · rw [hread.channel]
    show t.channel.readAvail - out.code.buf.length + out.code.buf.length = _
    omega
  · rw [← hqueued streamId]
    exact htaken.front
  · intro other hother
    rw [← hqueued other]
    exact (htaken.others rfl other hother).symm

/-- A call whose message has to wait. -/
theorem delivered_again {s : ChannelSession} (streamId : UInt32) (h : Sound buflen s)
    (hn : narrow s.channel buflen) (rest : List (List UInt8)) :
    Delivered buflen streamId s [] 0
      ⟨.eagain, { s with channel := asking s.channel buflen }, none, rest⟩ :=
  ⟨h.asking hn, ⟨rfl, rfl, rfl, rfl⟩, rfl, rfl, List.append_nil _, fun _ _ => List.append_nil _,
    Nat.zero_le _, fun h => by cases h⟩

/-- The window has been made wider before the messages came in. -/
theorem Delivered.widened {s : ChannelSession} {messages : List ServerMessage} {out : ReadOut}
    (h : Delivered buflen streamId { s with channel := widened s.channel buflen } messages 0 out) :
    Delivered buflen streamId s messages (expansion s.channel buflen) out :=
  ⟨h.sound, ⟨h.keeps.localId, h.keeps.packetSize, h.keeps.initial, h.keeps.merge⟩, h.window,
    h.avail, h.stream, h.others, h.inside, h.drained⟩

/-- A call whose message has to wait takes nothing in. Any other takes in what arrives, and says by
how much the window grows. -/
theorem read_delivered (streamId : UInt32) (h : Linked buflen link) {sending : Sending}
    (hsend : sending ≠ .failed) (forced : Sending) {arriving : Nat}
    (harriving : arriving ≤ link.toClient.length) (last : LastRead) :
    ∃ out, channelReadEx link.client streamId buflen forced sending (link.incoming arriving) last =
        some (none, out) ∧
      Delivered buflen streamId link.client
        (link.toClient.take (arriving - out.rest.length))
        (total grantOf out.message.toList) out := by
  have hs := h.within.1
  have hcredit := h.credit
  have hfits := hs.fits
  have hsplit := total_append ServerMessage.size (link.toClient.take arriving)
    (link.toClient.drop arriving)
  rw [List.take_append_drop] at hsplit
  have hproper : ∀ m ∈ link.toClient.take arriving, m.Proper link.client.channel.packetSize :=
    fun m hm => h.proper m (List.mem_of_mem_take hm)
  rw [channelReadEx, if_neg (Nat.not_lt_of_le h.within.bounded.room)]
  by_cases hn : narrow link.client.channel buflen
  · obtain ⟨-, hwide, hmax⟩ := expansion_spec hs hn
    cases sending with
    | failed => exact absurd rfl hsend
    | again =>
        have hlen : (link.incoming arriving).length = arriving := by
          rw [Link.incoming, List.length_map, List.length_take, Nat.min_eq_left harriving]
        rw [channelRead_again hs hn, Option.map_some]
        refine ⟨_, rfl, ?_⟩
        rw [hlen, Nat.sub_self]
        exact delivered_again streamId hs hn _
    | sent =>
        have hgrant := grantOf_adjustMessage link.client.channel.remoteId
          (by omega : expansion link.client.channel buflen < 2 ^ 32)
        obtain ⟨out, hout, hmessage, hrest, hdelivered⟩ := readQueue_delivered streamId
          (hs.widened hn) h.apart rfl (by
            show link.client.channel.windowSizeInitial / 4 * 3 + buflen ≤
              link.client.channel.windowSize + expansion link.client.channel buflen
            omega) hproper (by
            show link.client.channel.readAvail + _ ≤
              link.client.channel.windowSize + expansion link.client.channel buflen
            omega) (some (adjustMessage link.client.channel.remoteId
              (expansion link.client.channel buflen))) last
        refine ⟨out, ?_, ?_⟩
        · rw [channelRead_sent hs hn]
          exact congrArg (Option.map (none, ·)) hout
        · have hall : total grantOf out.message.toList = expansion link.client.channel buflen := by
            rw [hmessage, Option.toList_some, total, total, Nat.add_zero, hgrant]
          rw [hrest, List.length_nil, Nat.sub_zero, hall]
          exact hdelivered.widened
  · have hjump : link.client.channel.readJump = false :=
      Bool.eq_false_iff.mpr fun hj => hn (.inl hj)
    have hwide : link.client.channel.windowSizeInitial / 4 * 3 + buflen ≤
        link.client.channel.windowSize := Nat.le_of_not_lt fun hlt => hn ((narrow_iff hs).mpr hlt)
    obtain ⟨out, hout, hmessage, hrest, hdelivered⟩ := readQueue_delivered streamId hs
      h.apart hjump hwide hproper (by omega) none last
    refine ⟨out, ?_, ?_⟩
    · rw [channelRead, if_neg hn]
      exact congrArg (Option.map (none, ·)) hout
    · rw [hrest, List.length_nil, Nat.sub_zero, hmessage]
      exact hdelivered

/-- What a call does to the link. -/
theorem Linked.read (h : Linked buflen link) {arriving : Nat} {out : ReadOut}
    (hout : Delivered buflen streamId link.client
      (link.toClient.take (arriving - out.rest.length)) (total grantOf out.message.toList) out) :
    Linked buflen (link.after streamId arriving (none, out)) := by
  have hcredit := h.credit
  have hwindow := hout.window
  have havail := hout.avail
  have hsize := total_append ServerMessage.size (link.toClient.take (arriving - out.rest.length))
    (link.toClient.drop (arriving - out.rest.length))
  rw [List.take_append_drop] at hsize
  refine ⟨⟨hout.sound, ?_⟩, ?_, ?_, ?_, fun other => ?_⟩
  · show buflen ≤ out.session.channel.windowSizeInitial / 4 * 3
    rw [hout.keeps.initial]
    exact h.within.2
  · exact hout.keeps.merge.trans h.apart
  · intro m hm
    show m.Proper out.session.channel.packetSize
    rw [hout.keeps.packetSize]
    exact h.proper m (List.mem_of_mem_drop hm)
  · show out.session.channel.windowSize = out.session.channel.readAvail + link.serverWindow +
      total grantOf (link.toServer ++ out.message.toList) +
      total ServerMessage.size (link.toClient.drop (arriving - out.rest.length))
    rw [total_append]
    omega
  · show bytesOn other link.sent = bytesOn other (link.got ++ [(streamId, out.code.buf)]) ++
      (queuedBytes false other out.session.packets ++
        flying other (link.toClient.drop (arriving - out.rest.length)))
    have hflying := flying_append other (link.toClient.take (arriving - out.rest.length))
      (link.toClient.drop (arriving - out.rest.length))
    rw [List.take_append_drop] at hflying
    rw [h.streams other, hflying, bytesOn_append_singleton]
    by_cases hother : streamId = other
    · have hstream := hout.stream
      rw [hother] at hstream
      rw [if_pos hother, ← List.append_assoc (queuedBytes _ _ _), hstream]
      simp only [List.append_assoc]
    · rw [if_neg hother, List.append_nil, ← hout.others other (Ne.symm hother)]
      simp only [List.append_assoc]

/-- A message of the server, for which there is room in the window that it knows of, is on its way. -/
theorem Linked.tell (h : Linked buflen link) {m : ServerMessage}
    (hproper : m.Proper link.client.channel.packetSize) (hsize : m.size ≤ link.serverWindow)
    {sent : List (UInt32 × List UInt8)}
    (hsent : ∀ other, bytesOn other sent = bytesOn other link.sent ++ m.on other) :
    Linked buflen { link with
      serverWindow := link.serverWindow - m.size
      toClient := link.toClient ++ [m]
      sent := sent } := by
  have hcredit := h.credit
  refine ⟨h.within, h.apart, ?_, ?_, fun other => ?_⟩
  · intro n hn
    rcases List.mem_append.mp hn with hn | hn
    · exact h.proper n hn
    · rw [List.mem_singleton.mp hn]
      exact hproper
  · show link.client.channel.windowSize = link.client.channel.readAvail +
      (link.serverWindow - m.size) + total grantOf link.toServer +
      total ServerMessage.size (link.toClient ++ [m])
    rw [total_append, total, total]
    omega
  · show bytesOn other sent = bytesOn other link.got ++
      (queuedBytes false other link.client.packets ++ flying other (link.toClient ++ [m]))
    have hlast : flying other [m] = m.on other := List.flatMap_singleton ..
    rw [hsent, h.streams other, flying_append, hlast]
    simp only [List.append_assoc]

/-- The server hears of more room. -/
theorem Linked.hear (h : Linked buflen link) {message : List UInt8} {messages : List (List UInt8)}
    (hserver : link.toServer = message :: messages) :
    Linked buflen { link with
      serverWindow := link.serverWindow + grantOf message
      toServer := messages } := by
  have hcredit := h.credit
  rw [hserver, total] at hcredit
  refine ⟨h.within, h.apart, h.proper, ?_, h.streams⟩
  show link.client.channel.windowSize = link.client.channel.readAvail +
    (link.serverWindow + grantOf message) + total grantOf messages +
    total ServerMessage.size link.toClient
  omega

/-- The message for the window is sent sooner or later. -/
def LinkStep.Ordinary : LinkStep → Prop
  | .read _ _ sending _ _ => sending ≠ .failed
  | _ => True

theorem linkStep_linked {next : Link} {step : LinkStep} (h : Linked buflen link)
    (hstep : step.Ordinary) (hnext : linkStep buflen link step = some next) :
    Linked buflen next := by
  cases step with
  | send sid bytes =>
      rw [linkStep, Option.ite_none_right_eq_some] at hnext
      obtain ⟨⟨hwindow, hpacket⟩, hnext⟩ := hnext
      obtain rfl := Option.some.inj hnext
      have hsent : ∀ other, bytesOn other (link.sent ++ [(sid, bytes)]) =
          bytesOn other link.sent ++ ServerMessage.on other (.data sid bytes) := fun other =>
        bytesOn_append_singleton other link.sent (sid, bytes)
      exact h.tell (m := .data sid bytes) hpacket hwindow hsent
  | tell msg tail =>
      by_cases hspecial : special.contains msg = true
      · rw [linkStep, if_pos hspecial] at hnext
        cases hnext
      · rw [linkStep, if_neg hspecial] at hnext
        obtain rfl := Option.some.inj hnext
        have hproper : ServerMessage.Proper link.client.channel.packetSize (.other (msg :: tail)) :=
          ⟨msg, tail, rfl, fun hmem => hspecial (List.contains_iff_mem.mpr hmem)⟩
        exact h.tell hproper (Nat.zero_le _) fun other => (List.append_nil _).symm
  | hear =>
      cases hserver : link.toServer with
      | nil =>
          rw [linkStep, hserver] at hnext
          cases hnext
      | cons message messages =>
          rw [linkStep, hserver] at hnext
          obtain rfl := Option.some.inj hnext
          exact h.hear hserver
  | read sid forced sending arriving last =>
      rw [linkStep, Option.ite_none_right_eq_some] at hnext
      obtain ⟨harriving, hnext⟩ := hnext
      obtain ⟨out, hread, hout⟩ := read_delivered sid h hstep forced harriving last
      rw [hread, Option.map_some] at hnext
      obtain rfl := Option.some.inj hnext
      exact h.read hout

/-- A channel as it is opened at both ends. -/
structure LinkOpened (buflen : Nat) (link : Link) : Prop where
  client : Opened buflen link.client
  apart : link.client.channel.merge = false
  window : link.serverWindow = link.client.channel.windowSizeInitial
  silent : link.toClient = [] ∧ link.toServer = [] ∧ link.sent = [] ∧ link.got = []

theorem LinkOpened.linked (h : LinkOpened buflen link) : Linked buflen link := by
  obtain ⟨hclient, hserver, hsent, hgot⟩ := h.silent
  have hsize := h.client.size
  have havail := h.client.avail
  refine ⟨⟨h.client.sound, h.client.buffer⟩, h.apart, ?_, ?_, fun streamId => ?_⟩
  · rw [hclient]
    exact fun m hm => absurd hm List.not_mem_nil
  · rw [hclient, hserver, total, total, h.window]
    omega
  · rw [hclient, hsent, hgot, h.client.packets]
    rfl

/-- What a call that takes in `arriving` messages returns: as much as the buffer holds of what has
been sent on its stream, has come in and has not been read. -/
def ReturnsNext (buflen : Nat) (link : Link) : Prop :=
  ∀ streamId forced sending arriving last, sending ≠ Sending.failed →
    arriving ≤ link.toClient.length →
    ∃ out, channelReadEx link.client streamId buflen forced sending (link.incoming arriving) last =
        some (none, out) ∧
      (out.rest = [] → ∀ buf, out.code = .bytes buf →
        buf = (queuedBytes false streamId link.client.packets ++
          flying streamId (link.toClient.take arriving)).take buflen)

/-- What holds of the two ends at any time: every stream has been read up to what is queued and on
its way; nothing of the window is lost, and enough of it comes back to the server. -/
structure Lossless (buflen : Nat) (link : Link) : Prop where
  streams : ∀ streamId, bytesOn streamId link.sent = bytesOn streamId link.got ++
    (queuedBytes false streamId link.client.packets ++ flying streamId link.toClient)
  credit : link.client.channel.windowSize = total Packet.left link.client.packets +
    link.serverWindow + total grantOf link.toServer + total ServerMessage.size link.toClient
  cap : link.client.channel.windowSize ≤
    link.client.channel.windowSizeInitial + buflen + minAdjust
  enough : link.client.channel.windowSizeInitial / 4 * 3 ≤ link.client.channel.windowSize
  next : ReturnsNext buflen link

theorem Linked.lossless (h : Linked buflen link) : Lossless buflen link := by
  refine ⟨h.streams, ?_, h.within.1.cap, h.within.1.low, ?_⟩
  · rw [← h.within.1.avail]
    exact h.credit
  · intro streamId forced sending arriving last hsend harriving
    obtain ⟨out, hread, hout⟩ := read_delivered streamId h hsend forced harriving last
    refine ⟨out, hread, fun hrest buf hbuf => ?_⟩
    have hstream := hout.stream
    have hinside := hout.inside
    have hdrained := hout.drained
    rw [hrest, List.length_nil, Nat.sub_zero] at hstream
    rw [hbuf] at hstream hinside hdrained
    rw [hstream]
    by_cases hshort : buf.length < buflen
    · rw [hdrained rfl hshort]
      simp only [ReadCode.buf, List.append_nil]
      exact (List.take_of_length_le (Nat.le_of_lt hshort)).symm
    · have hfull : buf.length = buflen := Nat.le_antisymm hinside (Nat.le_of_not_lt hshort)
      exact (List.take_left' hfull).symm

/-- A shell whose server greets, warns on the other stream and ends its output. -/
def openedLink : Link := ⟨openedShell, 2 * 1024 * 1024, [], [], [], []⟩

def greetingSteps : List LinkStep :=
  [.send 0 [104, 105], .send 1 [33], .read 0 .sent .sent 1 .again, .tell 96 [0, 0, 0, 0],
    .read 0 .sent .sent 2 .again, .read 1 .sent .sent 0 .again]

theorem openedLink_opened : LinkOpened 128 openedLink :=
  ⟨openedShell_opened, rfl, rfl, rfl, rfl, rfl, rfl⟩

/-- Both streams are read to their ends. -/
example : (run (linkStep 128) openedLink greetingSteps).map Link.got =
    some [(0, [104, 105]), (0, []), (1, [33])] := by decide

end Linking

end InfoGlobe.Ssh
