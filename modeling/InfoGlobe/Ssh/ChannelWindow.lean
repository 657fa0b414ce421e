import InfoGlobe.Ssh.ChannelQueue

/-!
The window of a channel. Before a call reads it makes the window as wide as at the beginning and a
buffer more, unless there is enough of it left; so the window is never narrower than three quarters
of what it was, and what is queued never more than it.
-/

namespace InfoGlobe.Ssh
open CheckedBlock StepSystem

/-! ### Making the window wider -/

/-- The channel while the message waits. -/
def asking (channel : Channel) (buflen : Nat) : Channel :=
  { channel with
    readJump := true
    adjustAdjust := adjustMessage channel.remoteId (expansion channel buflen)
    adjustCreated := true }

/-- The channel when it has been sent. -/
def widened (channel : Channel) (buflen : Nat) : Channel :=
  { channel with
    windowSize := channel.windowSize + expansion channel buflen
    adjustAdjust := adjustMessage channel.remoteId (expansion channel buflen)
    adjustCreated := false
    readJump := false }

section Adjusting
variable {buflen : Nat} {s : ChannelSession}

theorem narrow_iff (h : Sound buflen s) : narrow s.channel buflen ↔
    s.channel.windowSize < s.channel.windowSizeInitial / 4 * 3 + buflen := by
  have hfits := h.fits
  have hsize : sizeT (s.channel.windowSizeInitial / 4 * 3 + buflen) =
      s.channel.windowSizeInitial / 4 * 3 + buflen := sizeT_eq (by omega) (by omega)
  rw [narrow, hsize]
  exact ⟨fun hn => hn.elim h.jump id, .inr⟩

/-- The window grows to what it was at the beginning and a buffer more, and by no less than the
smallest adjustment. -/
theorem expansion_spec (h : Sound buflen s) (hn : narrow s.channel buflen) :
    minAdjust ≤ expansion s.channel buflen ∧
      s.channel.windowSizeInitial + buflen ≤ s.channel.windowSize + expansion s.channel buflen ∧
      s.channel.windowSize + expansion s.channel buflen ≤
        s.channel.windowSizeInitial + buflen + minAdjust := by
  have hfits := h.fits
  have hlow := (narrow_iff h).mp hn
  have hsize : sizeT (s.channel.windowSizeInitial + buflen - s.channel.windowSize) =
      s.channel.windowSizeInitial + buflen - s.channel.windowSize := sizeT_eq (by omega) (by omega)
  simp only [expansion, hsize]
  split <;> omega

/-- Whether a message waits or not, the same one is sent. -/
theorem receiveWindowAdjust_eq (h : Sound buflen s) (hn : narrow s.channel buflen)
    (sending : Sending) :
    receiveWindowAdjust { s.channel with readJump := true } (expansion s.channel buflen) false
      sending = sendAdjust (asking s.channel buflen) (expansion s.channel buflen) sending := by
  have hfits := h.fits
  obtain ⟨hmin, -, hmax⟩ := expansion_spec h hn
  have hpos : 0 < minAdjust := by decide
  have hcreated := h.created
  have hqueue := h.queue
  rw [receiveWindowAdjust]
  by_cases hwaits : s.channel.adjustCreated = true
  · rw [if_pos hwaits]
    have hjump : s.channel.readJump = true := hcreated.symm.trans hwaits
    have hsame : ({ s.channel with readJump := true } : Channel) = asking s.channel buflen := by
      rw [asking, ← h.pending hjump, ← hwaits]
    rw [hsame]
  · rw [if_neg hwaits]
    have hsize : sizeT (expansion s.channel buflen + (0 : Nat)) = expansion s.channel buflen :=
      sizeT_eq (by omega) (by omega)
    have hsame : ({ s.channel with
          adjustQueue := 0
          adjustAdjust := adjustMessage s.channel.remoteId (expansion s.channel buflen)
          adjustCreated := true
          readJump := true } : Channel) = asking s.channel buflen := by
      rw [asking, ← hqueue]
    simp only [hqueue, hsize]
    rw [if_neg (by omega), if_neg (by omega), hsame]

/-- While the message waits nothing else changes. -/
theorem Sound.asking (h : Sound buflen s) (hn : narrow s.channel buflen) :
    Sound buflen { s with channel := asking s.channel buflen } :=
  ⟨h.queued, h.avail, h.within, h.cap, h.low, h.fits, h.queue, rfl, fun _ => (narrow_iff h).mp hn,
    fun _ => rfl⟩

theorem Sound.widened (h : Sound buflen s) (hn : narrow s.channel buflen) :
    Sound buflen { s with channel := widened s.channel buflen } := by
  obtain ⟨-, hlow, hmax⟩ := expansion_spec h hn
  refine ⟨h.queued, h.avail, ?_, hmax, ?_, h.fits, h.queue, rfl, fun hj => ?_, fun hj => ?_⟩
  · exact Nat.le_trans h.within (Nat.le_add_right _ _)
  · show s.channel.windowSizeInitial / 4 * 3 ≤ s.channel.windowSize + expansion s.channel buflen
    omega
  · exact absurd (show false = true from hj) Bool.false_ne_true
  · exact absurd (show false = true from hj) Bool.false_ne_true

end Adjusting

/-! ### One call -/

/-- The bytes that a call returns. -/
def ReadCode.buf : ReadCode → List UInt8
  | .bytes buf => buf
  | .eagain | .error => []

section Calls
variable {buflen : Nat} {streamId : UInt32} {s t : ChannelSession}

/-- A call has read from the queue of `t`. -/
structure Reads (buflen : Nat) (streamId : UInt32) (t : ChannelSession) (out : ReadOut) :
    Prop where
  sound : Sound buflen out.session
  inside : out.code.buf.length ≤ buflen
  taken : Taken t.channel.merge streamId out.code.buf t.packets out.session.packets
  channel : out.session.channel = { t.channel with
    readAvail := t.channel.readAvail - out.code.buf.length
    windowSize := t.channel.windowSize - out.code.buf.length }
  drained : out.code = .bytes out.code.buf → out.code.buf.length < buflen →
    queuedBytes t.channel.merge streamId out.session.packets = []

theorem reads_nothing (h : Sound buflen s) {code : ReadCode} (hcode : code.buf = [])
    (hbytes : code = .bytes code.buf → 0 < buflen →
      queuedBytes s.channel.merge streamId s.packets = [])
    (message : Option (List UInt8)) (rest : List (List UInt8)) :
    Reads buflen streamId s ⟨code, s, message, rest⟩ := by
  constructor
  · exact h
  · show code.buf.length ≤ buflen
    rw [hcode]
    exact Nat.zero_le _
  · show Taken _ _ code.buf _ _
    rw [hcode]
    exact Taken.refl _ _ _
  · show s.channel = _
    simp only [hcode]
    rfl
  · show code = .bytes code.buf → code.buf.length < buflen → _
    rw [hcode] at hbytes ⊢
    exact hbytes

/-- The part behind the window keeps the queue within it, where the window is wide enough. -/
theorem readQueue_reads (streamId : UInt32) (ht : Sound buflen t)
    (hidle : t.channel.readJump = false)
    (hwide : t.channel.windowSizeInitial / 4 * 3 + buflen ≤ t.channel.windowSize)
    {incoming rest : List (List UInt8)} {well : Bool}
    (hreads : transportReads s incoming = some (t, well, rest)) (message : Option (List UInt8))
    (last : LastRead) :
    ∃ out, readQueue s message streamId buflen incoming last = some out ∧
      Reads buflen streamId t out ∧ out.message = message ∧ out.rest = rest := by
  have hfits := ht.fits
  have hcap := ht.cap
  have hwithin := ht.within
  rw [readQueue, hreads, Option.bind_some]
  by_cases hfailed : well = false ∨ last = .failed
  · refine ⟨⟨.error, t, message, rest⟩, if_pos hfailed, ?_, rfl, rfl⟩
    exact reads_nothing ht rfl (fun h => by cases h) message rest
  · obtain ⟨bytes, packets, hread, hlen, htaken, hqueued, hend⟩ :=
      readPackets_eq streamId [] (Nat.zero_le buflen) ht.queued
    rw [List.nil_append] at hread hlen hend
    have havail := htaken.left
    rw [← ht.avail] at havail
    simp only [if_neg hfailed, hread, Option.map_some]
    have hfull : bytes.length < buflen → queuedBytes t.channel.merge streamId packets = [] :=
      fun hshort => hend.resolve_left (Nat.ne_of_lt hshort)
    by_cases hnone : bytes = []
    · subst hnone
      rw [if_pos rfl]
      have hsame : Sound buflen { t with packets := packets } :=
        ⟨hqueued, by
          show t.channel.readAvail = _
          rw [havail]
          exact Nat.zero_add _, ht.within, ht.cap, ht.low, ht.fits, ht.queue, ht.created, ht.jump,
          ht.pending⟩
      refine ⟨_, rfl, ?_, rfl, rfl⟩
      split
      · exact ⟨hsame, hlen, htaken, rfl, fun _ => hfull⟩
      · exact ⟨hsame, hlen, htaken, rfl, fun h => by cases h⟩
    · rw [if_neg hnone]
      have hnewAvail : sizeT (t.channel.readAvail - bytes.length) =
          t.channel.readAvail - bytes.length := sizeT_eq (by omega) (by omega)
      have hnewSize : sizeT (t.channel.windowSize - bytes.length) =
          t.channel.windowSize - bytes.length := sizeT_eq (by omega) (by omega)
      rw [hnewAvail, hnewSize]
      refine ⟨_, rfl, ⟨?_, hlen, htaken, rfl, fun _ => hfull⟩, rfl, rfl⟩
      refine ⟨hqueued, ?_, ?_, ?_, ?_, ht.fits, ht.queue, ht.created, fun hj => ?_, fun hj => ?_⟩
      · show t.channel.readAvail - bytes.length = total Packet.left packets
        omega
      · show t.channel.readAvail - bytes.length ≤ t.channel.windowSize - bytes.length
        omega
      · show t.channel.windowSize - bytes.length ≤ _
        exact Nat.le_trans (Nat.sub_le _ _) hcap
      · show t.channel.windowSizeInitial / 4 * 3 ≤ t.channel.windowSize - bytes.length
        omega
      · rw [show t.channel.readJump = true from hj] at hidle
        cases hidle
      · rw [show t.channel.readJump = true from hj] at hidle
        cases hidle

/-- The queue that a call reads from: what there was, with the packets that came in behind it. -/
structure ReadsFrom (buflen : Nat) (streamId : UInt32) (s : ChannelSession) (out : ReadOut) :
    Prop where
  sound : Sound buflen out.session
  inside : out.code.buf.length ≤ buflen
  from_queue : ∃ queue, s.packets <+: queue ∧
    Taken s.channel.merge streamId out.code.buf queue out.session.packets
  same : out.session.channel.merge = s.channel.merge ∧
    out.session.channel.windowSizeInitial = s.channel.windowSizeInitial
  drained : out.code = .bytes out.code.buf → out.code.buf.length < buflen →
    queuedBytes s.channel.merge streamId out.session.packets = []

theorem Reads.readsFrom {out : ReadOut} (h : Reads buflen streamId t out) (harr : Arrives s t) :
    ReadsFrom buflen streamId s out := by
  obtain ⟨⟨eof, close, readAvail, heq⟩, hpackets⟩ := harr
  have hmerge : t.channel.merge = s.channel.merge := by rw [heq]
  have hinitial : t.channel.windowSizeInitial = s.channel.windowSizeInitial := by rw [heq]
  have htaken := h.taken
  have hdrained := h.drained
  rw [hmerge] at htaken hdrained
  exact ⟨h.sound, h.inside, ⟨t.packets, hpackets, htaken⟩,
    by rw [h.channel]; exact ⟨hmerge, hinitial⟩, hdrained⟩

/-- A call whose message is sent, or that needs none. -/
theorem channelRead_again (h : Sound buflen s) (hn : narrow s.channel buflen)
    (incoming : List (List UInt8)) (last : LastRead) :
    channelRead s streamId buflen .again incoming last =
      some ⟨.eagain, { s with channel := asking s.channel buflen }, none, incoming⟩ := by
  rw [channelRead, if_pos hn]
  simp only [receiveWindowAdjust_eq h hn, sendAdjust]

theorem channelRead_sent (h : Sound buflen s) (hn : narrow s.channel buflen)
    (incoming : List (List UInt8)) (last : LastRead) :
    channelRead s streamId buflen .sent incoming last =
      readQueue { s with channel := widened s.channel buflen }
        (some (adjustMessage s.channel.remoteId (expansion s.channel buflen))) streamId buflen
        incoming last := by
  have hfits := h.fits
  obtain ⟨-, -, hmax⟩ := expansion_spec h hn
  have hsize : sizeT (s.channel.windowSize + expansion s.channel buflen) =
      s.channel.windowSize + expansion s.channel buflen := sizeT_eq (by omega) (by omega)
  rw [channelRead, if_pos hn]
  simp only [receiveWindowAdjust_eq h hn, sendAdjust, asking, hsize]
  rfl

/-- Every call keeps the queue within the window, whatever comes in. -/
theorem channelRead_readsFrom (streamId : UInt32) (h : Sound buflen s) {sending : Sending}
    (hsend : sending ≠ .failed) {incoming : List (List UInt8)}
    (hne : ∀ data ∈ incoming, data ≠ []) (last : LastRead) :
    ∃ out, channelRead s streamId buflen sending incoming last = some out ∧
      ReadsFrom buflen streamId s out := by
  by_cases hn : narrow s.channel buflen
  · cases sending with
    | failed => exact absurd rfl hsend
    | again =>
        refine ⟨_, channelRead_again h hn incoming last, h.asking hn, Nat.zero_le _, ?_, ⟨rfl, rfl⟩,
          fun h => by cases h⟩
        exact ⟨s.packets, List.prefix_rfl, Taken.refl _ _ _⟩
    | sent =>
        have hsound := h.widened hn
        obtain ⟨t, well, rest, hreads, ht, harr⟩ := transportReads_sound hsound hne
        obtain ⟨⟨eof, close, readAvail, heq⟩, hpackets⟩ := harr
        have hwide := (expansion_spec h hn).2.1
        have hsize : t.channel.windowSize = s.channel.windowSize + expansion s.channel buflen := by
          rw [heq]
          rfl
        have hinitial : t.channel.windowSizeInitial = s.channel.windowSizeInitial := by
          rw [heq]
          rfl
        obtain ⟨out, hout, hread, -, -⟩ := readQueue_reads streamId ht (by rw [heq]; rfl)
          (by rw [hsize, hinitial]; omega) hreads
          (some (adjustMessage s.channel.remoteId (expansion s.channel buflen))) last
        rw [channelRead_sent h hn]
        have hfrom := hread.readsFrom ⟨⟨eof, close, readAvail, heq⟩, hpackets⟩
        exact ⟨out, hout, hfrom.sound, hfrom.inside, hfrom.from_queue, hfrom.same, hfrom.drained⟩
  · obtain ⟨t, well, rest, hreads, ht, harr⟩ := transportReads_sound h hne
    obtain ⟨⟨eof, close, readAvail, heq⟩, hpackets⟩ := harr
    have hjump : s.channel.readJump = false := Bool.eq_false_iff.mpr fun hj => hn (.inl hj)
    have hwide : s.channel.windowSizeInitial / 4 * 3 + buflen ≤ s.channel.windowSize :=
      Nat.le_of_not_lt fun hlt => hn ((narrow_iff h).mpr hlt)
    obtain ⟨out, hout, hread, -, -⟩ := readQueue_reads streamId ht (by rw [heq]; exact hjump)
      (by rw [heq]; exact hwide) hreads none last
    rw [channelRead, if_neg hn]
    exact ⟨out, hout, hread.readsFrom ⟨⟨eof, close, readAvail, heq⟩, hpackets⟩⟩

end Calls

/-! ### Runs of calls -/

def kexInit : UInt8 := 20

/-- One call, with what the server and the socket do in it. -/
structure ChannelCall where
  streamId : UInt32
  forced : Sending
  sending : Sending
  incoming : List (List UInt8)
  last : LastRead

/-- The message for the window is sent sooner or later, and no key exchange begins. -/
structure ChannelCall.Ordinary (call : ChannelCall) : Prop where
  sending : call.sending ≠ .failed
  packets : ∀ data ∈ call.incoming, data ≠ [] ∧ data.head? ≠ some kexInit

def ChannelCall.read (call : ChannelCall) (buflen : Nat) (s : ChannelSession) :
    Access (Option (List UInt8) × ReadOut) :=
  channelReadEx s call.streamId buflen call.forced call.sending call.incoming call.last

def readStep (buflen : Nat) (s : ChannelSession) (call : ChannelCall) : Option ChannelSession :=
  (call.read buflen s).map fun r => r.2.session

/-- A channel as it is opened. -/
structure Opened (buflen : Nat) (s : ChannelSession) : Prop where
  packets : s.packets = []
  avail : s.channel.readAvail = 0
  size : s.channel.windowSize = s.channel.windowSizeInitial
  queue : s.channel.adjustQueue = 0
  created : s.channel.adjustCreated = false
  jump : s.channel.readJump = false
  buffer : buflen ≤ s.channel.windowSizeInitial / 4 * 3
  fits : s.channel.windowSizeInitial + buflen + minAdjust + s.channel.packetSize + 13 < 2 ^ 32

/-- What is queued is accounted for and bounded, and there is always room for a buffer. -/
structure Bounded (buflen : Nat) (s : ChannelSession) : Prop where
  avail : s.channel.readAvail = total Packet.left s.packets
  within : s.channel.readAvail ≤ s.channel.windowSize
  cap : s.channel.windowSize ≤ s.channel.windowSizeInitial + buflen + minAdjust
  room : buflen ≤ s.channel.windowSize

/-- A call returns no more than the buffer holds: the beginning of what is queued for its stream,
and all of it if that is less. -/
structure Returns (buflen : Nat) (s : ChannelSession) (call : ChannelCall)
    (r : Option (List UInt8) × ReadOut) : Prop where
  unforced : r.1 = none
  inside : r.2.code.buf.length ≤ buflen
  front : ∃ queue, s.packets <+: queue ∧
    queuedBytes s.channel.merge call.streamId queue =
      r.2.code.buf ++ queuedBytes s.channel.merge call.streamId r.2.session.packets ∧
    (s.channel.merge = false → ∀ other, other ≠ call.streamId →
      queuedBytes false other r.2.session.packets = queuedBytes false other queue)
  drained : r.2.code = .bytes r.2.code.buf → r.2.code.buf.length < buflen →
    queuedBytes s.channel.merge call.streamId r.2.session.packets = []

section Runs
variable {buflen : Nat} {s : ChannelSession}

theorem Opened.sound (h : Opened buflen s) : Sound buflen s := by
  have hsize := h.size
  refine ⟨?_, ?_, ?_, ?_, ?_, h.fits, h.queue, h.created.trans h.jump.symm, ?_, ?_⟩
  · rw [h.packets]
    exact fun p hp => absurd hp List.not_mem_nil
  · rw [h.packets, h.avail]
    rfl
  · rw [h.avail]
    exact Nat.zero_le _
  · omega
  · omega
  · rw [h.jump]
    exact fun hj => absurd hj Bool.false_ne_true
  · rw [h.jump]
    exact fun hj => absurd hj Bool.false_ne_true

/-- What holds along a run. -/
def Within (buflen : Nat) (s : ChannelSession) : Prop :=
  Sound buflen s ∧ buflen ≤ s.channel.windowSizeInitial / 4 * 3

theorem Within.bounded (h : Within buflen s) : Bounded buflen s :=
  ⟨h.1.avail, h.1.within, h.1.cap, Nat.le_trans h.2 h.1.low⟩

theorem read_returns (h : Within buflen s) {call : ChannelCall} (hcall : call.Ordinary) :
    ∃ r, call.read buflen s = some r ∧ Within buflen r.2.session ∧ Returns buflen s call r := by
  obtain ⟨out, hout, hreads⟩ := channelRead_readsFrom call.streamId h.1 hcall.sending
    (fun data hdata => (hcall.packets data hdata).1) call.last
  refine ⟨(none, out), ?_, ⟨hreads.sound, ?_⟩, ?_⟩
  · rw [ChannelCall.read, channelReadEx, if_neg (Nat.not_lt_of_le h.bounded.room), hout]
    rfl
  · show buflen ≤ out.session.channel.windowSizeInitial / 4 * 3
    rw [hreads.same.2]
    exact h.2
  · obtain ⟨queue, hqueue, htaken⟩ := hreads.from_queue
    exact ⟨rfl, hreads.inside, ⟨queue, hqueue, htaken.front, fun hm => htaken.others hm⟩,
      hreads.drained⟩

/-- The channel of a shell as it is opened, with the window and the packets of the defaults. -/
def openedShell : ChannelSession where
  channel :=
    { localId := 0
      remoteId := 0
      windowSizeInitial := 2 * 1024 * 1024
      windowSize := 2 * 1024 * 1024
      packetSize := 32768
      eof := false
      close := false
      merge := false
      readAvail := 0
      adjustQueue := 0
      adjustCreated := false
      adjustAdjust := []
      readJump := false }
  packets := []

theorem openedShell_opened : Opened 128 openedShell := by
  constructor <;> decide

/-- A greeting comes in while a call reads. -/
def greetingCall : ChannelCall :=
  ⟨0, .sent, .sent, [[94, 0, 0, 0, 0, 0, 0, 0, 2, 104, 105]], .again⟩

theorem greetingCall_ordinary : greetingCall.Ordinary :=
  ⟨by decide, by decide⟩

/-- The greeting is what the call returns. -/
example : (greetingCall.read 128 openedShell).map (fun r => r.2.code.buf) = some [104, 105] := by
  decide

end Runs

end InfoGlobe.Ssh
