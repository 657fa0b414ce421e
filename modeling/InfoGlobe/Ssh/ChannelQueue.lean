import InfoGlobe.Library.StepSystem
import InfoGlobe.Ssh.ChannelRead
import InfoGlobe.Ssh.MessageFields

/-!
The queue of a channel. Whatever a server sends, the packets that are queued for the channel are no
more than its window, the window grows to a certain size only, and what is read is the beginning of
what has been queued.
-/

namespace InfoGlobe.Ssh
open CheckedBlock WireFormat StepSystem

/-! ### Packets -/

/-- Whether a packet has data of the channel. -/
def Packet.isData (p : Packet) : Bool :=
  p.data.head? == some channelData || p.data.head? == some channelExtendedData

/-- What is left of its data. -/
def Packet.left (p : Packet) : Nat := if p.isData then p.data.length - p.dataHead else 0

/-- Whether it belongs to a stream. -/
def Packet.belongs (merge : Bool) (streamId : UInt32) (p : Packet) : Bool :=
  if p.data.head? = some channelExtendedData then
    if streamId = 0 then merge else readBig ((p.data.drop 5).take 4) == streamId.toNat
  else streamId == 0 && p.data.head? == some channelData

/-- The bytes of a stream in a queue. -/
def queuedBytes (merge : Bool) (streamId : UInt32) (packets : List Packet) : List UInt8 :=
  packets.flatMap fun p => if p.belongs merge streamId then p.data.drop p.dataHead else []

/-- A packet in the queue has a type, and if it has data of the channel all that comes before. -/
structure Queued (localId : UInt32) (p : Packet) : Prop where
  kind : p.data ≠ []
  id : p.isData = true → ntohu32 p.data 1 = some localId
  head : p.isData = true → 9 ≤ p.dataHead
  extended : p.data.head? = some channelExtendedData → 13 ≤ p.dataHead
  inside : p.isData = true → p.dataHead ≤ p.data.length

/-- A packet that has been read in part. -/
theorem Queued.advance {localId : UInt32} {p : Packet} (h : Queued localId p) {n : Nat}
    (hn : p.dataHead + n ≤ p.data.length) :
    Queued localId { p with dataHead := p.dataHead + n } where
  kind := h.kind
  id := h.id
  head := fun hdata => Nat.le_trans (h.head hdata) (Nat.le_add_right _ _)
  extended := fun hext => Nat.le_trans (h.extended hext) (Nat.le_add_right _ _)
  inside := fun _ => hn

section Packets
variable {channel : Channel} {p : Packet} {streamId : UInt32}

theorem isData_of_belongs {merge : Bool} (h : p.belongs merge streamId = true) :
    p.isData = true := by
  rw [Packet.belongs] at h
  by_cases hext : p.data.head? = some channelExtendedData
  · simp [Packet.isData, hext]
  · rw [if_neg hext, Bool.and_eq_true] at h
    simp [Packet.isData, h.2]

theorem ntohu32_inside {block : List UInt8} {i : Nat} (h : i + 4 ≤ block.length) :
    ntohu32 block i = some (UInt32.ofNat (readBig ((block.drop i).take 4))) := by
  refine ntohu32_of_drop (List.take_append_drop 4 _).symm ?_
  rw [List.length_take, List.length_drop]
  omega

theorem wanted_eq (h : Queued channel.localId p) :
    wanted channel streamId p = some (p.belongs channel.merge streamId) := by
  have hother : p.isData = false → p.belongs channel.merge streamId = false := fun hdata =>
    Bool.eq_false_iff.mpr fun hbelongs => by
      rw [isData_of_belongs hbelongs] at hdata
      cases hdata
  rw [wanted]
  by_cases hshort : p.data.length < 5
  · have hdata : p.isData = false := Bool.eq_false_iff.mpr fun hdata => by
      have hhead := h.head hdata
      have hinside := h.inside hdata
      omega
    rw [if_pos hshort, hother hdata]
  · rw [if_neg hshort, ntohu32_inside (by omega)]
    obtain ⟨msg, tail, hparts⟩ := List.exists_cons_of_ne_nil h.kind
    have hmsg : load p.data 0 = some msg := by rw [hparts]; rfl
    have hhead : p.data.head? = some msg := by rw [hparts]; rfl
    have hid := h.id
    rw [ntohu32_inside (by omega)] at hid
    have hinside := h.inside
    have hextended := h.extended
    simp only [Option.bind_eq_bind, Option.bind_some, hmsg]
    rw [Packet.belongs]
    simp only [Packet.isData, hhead, Option.some.injEq, Option.some_beq_some, Bool.or_eq_true,
      beq_iff_eq] at hid hinside hextended ⊢
    by_cases hext : msg = channelExtendedData
    · rw [if_pos ⟨hext, hid (.inr hext)⟩, if_pos hext]
      split
      · rfl
      · have hlong : 5 + 4 ≤ p.data.length :=
          Nat.le_trans (Nat.le_trans (by decide) (hextended hext)) (hinside (.inr hext))
        rw [if_pos hlong, ntohu32_inside hlong, Option.map_some]
        have hlt := readBig_lt ((p.data.drop 5).take 4)
        have hfour : ((p.data.drop 5).take 4).length = 4 := by
          rw [List.length_take, List.length_drop]
          omega
        rw [hfour, show 256 ^ 4 = 2 ^ 32 from rfl] at hlt
        congr 1
        rw [Bool.eq_iff_iff, beq_iff_eq, beq_iff_eq, ← UInt32.toNat_inj, UInt32.toNat_ofNat',
          Nat.mod_eq_of_lt hlt]
        exact eq_comm
    · rw [if_neg fun hboth => hext hboth.1, if_neg hext]
      congr 1
      rw [Bool.eq_iff_iff, decide_eq_true_iff, Bool.and_eq_true, beq_iff_eq, beq_iff_eq]
      exact ⟨fun ⟨h0, hdata, _⟩ => ⟨h0, hdata⟩, fun ⟨h0, hdata⟩ => ⟨h0, hdata, hid (.inl hdata)⟩⟩

/-- Kept apart, the data of a packet belongs to one stream. -/
theorem eq_of_belongs {other : UInt32} (h : p.belongs false streamId = true)
    (hother : p.belongs false other = true) : streamId = other := by
  rw [Packet.belongs] at h hother
  by_cases hext : p.data.head? = some channelExtendedData
  · rw [if_pos hext] at h hother
    split at h
    · cases h
    · split at hother
      · cases hother
      · rw [beq_iff_eq] at h hother
        exact UInt32.toNat_inj.mp (h.symm.trans hother)
  · rw [if_neg hext, Bool.and_eq_true, beq_iff_eq] at h hother
    exact h.1.trans hother.1.symm

end Packets

/-! ### The loop over the packets -/

section Reading
variable {channel : Channel} {streamId : UInt32} {buflen : Nat}

theorem queuedBytes_cons (merge : Bool) (streamId : UInt32) (p : Packet) (packets : List Packet) :
    queuedBytes merge streamId (p :: packets) =
      (if p.belongs merge streamId then p.data.drop p.dataHead else []) ++
        queuedBytes merge streamId packets := List.flatMap_cons

/-- Some bytes have been taken from a queue, and `rest` is what is left. -/
structure Taken (merge : Bool) (streamId : UInt32) (bytes : List UInt8)
    (packets rest : List Packet) : Prop where
  front : queuedBytes merge streamId packets = bytes ++ queuedBytes merge streamId rest
  left : total Packet.left packets = bytes.length + total Packet.left rest
  others : merge = false → ∀ other, other ≠ streamId →
    queuedBytes false other rest = queuedBytes false other packets

theorem Taken.refl (merge : Bool) (streamId : UInt32) (packets : List Packet) :
    Taken merge streamId [] packets packets :=
  ⟨rfl, (Nat.zero_add _).symm, fun _ _ _ => rfl⟩

/-- A packet of another stream stays in front. -/
theorem Taken.skip {merge : Bool} {bytes : List UInt8} {packets rest : List Packet} {p : Packet}
    (h : Taken merge streamId bytes packets rest) (hp : p.belongs merge streamId = false) :
    Taken merge streamId bytes (p :: packets) (p :: rest) := by
  refine ⟨?_, ?_, fun hmerge other hother => ?_⟩
  · rw [queuedBytes_cons, queuedBytes_cons, hp, h.front]
    rfl
  · simp only [total, h.left]
    omega
  · rw [queuedBytes_cons, queuedBytes_cons, h.others hmerge other hother]

/-- A packet that is read to its end is gone. -/
theorem Taken.whole {merge : Bool} {bytes : List UInt8} {packets rest : List Packet} {p : Packet}
    (h : Taken merge streamId bytes packets rest) (hp : p.belongs merge streamId = true) :
    Taken merge streamId (p.data.drop p.dataHead ++ bytes) (p :: packets) rest := by
  refine ⟨?_, ?_, fun hmerge other hother => ?_⟩
  · rw [queuedBytes_cons, hp, h.front, List.append_assoc]
    rfl
  · have hleft : p.left = p.data.length - p.dataHead := by
      rw [Packet.left, isData_of_belongs hp]
      rfl
    simp only [total, h.left, hleft, List.length_append, List.length_drop]
    omega
  · subst hmerge
    have hnot : p.belongs false other = false := Bool.eq_false_iff.mpr fun hbelongs =>
      hother (eq_of_belongs hbelongs hp)
    rw [queuedBytes_cons, hnot, h.others rfl other hother]
    rfl

/-- A packet that is read in part stays, with what is left of it. -/
theorem taken_part {merge : Bool} {packets : List Packet} {p : Packet} {n : Nat}
    (hp : p.belongs merge streamId = true) (hn : n ≤ p.data.length - p.dataHead) :
    Taken merge streamId ((p.data.drop p.dataHead).take n) (p :: packets)
      ({ p with dataHead := p.dataHead + n } :: packets) := by
  have hsame : ∀ other, Packet.belongs merge other { p with dataHead := p.dataHead + n } =
      p.belongs merge other := fun _ => rfl
  have hdata : Packet.isData { p with dataHead := p.dataHead + n } = true := isData_of_belongs hp
  refine ⟨?_, ?_, fun hmerge other hother => ?_⟩
  · rw [queuedBytes_cons, queuedBytes_cons, hsame, hp, if_pos rfl, if_pos rfl, ← List.drop_drop,
      ← List.append_assoc, List.take_append_drop]
  · simp only [total, Packet.left, hdata, isData_of_belongs hp, if_true, List.length_take,
      List.length_drop]
    omega
  · subst hmerge
    have hnot : p.belongs false other = false := Bool.eq_false_iff.mpr fun hbelongs =>
      hother (eq_of_belongs hbelongs hp)
    rw [queuedBytes_cons, queuedBytes_cons, hsame, hnot]
    rfl

theorem loadMany_inside (block : List UInt8) (i n : Nat) (h : i + n ≤ block.length) :
    loadMany block i n = some ((block.drop i).take n) := if_pos h

theorem readPackets_full {buf : List UInt8} (h : ¬buf.length < buflen) (packets : List Packet) :
    readPackets channel streamId buflen buf packets = some (buf, packets) := by
  cases packets with
  | nil => rw [readPackets]
  | cons p packets => rw [readPackets, if_neg h]

/-- The loop fills the buffer or takes all that there is, and never goes past either. -/
theorem readPackets_eq (streamId : UInt32) (buf : List UInt8) (hbuf : buf.length ≤ buflen)
    {packets : List Packet} (h : ∀ p ∈ packets, Queued channel.localId p) :
    ∃ bytes rest, readPackets channel streamId buflen buf packets = some (buf ++ bytes, rest) ∧
      (buf ++ bytes).length ≤ buflen ∧ Taken channel.merge streamId bytes packets rest ∧
      (∀ p ∈ rest, Queued channel.localId p) ∧
      ((buf ++ bytes).length = buflen ∨ queuedBytes channel.merge streamId rest = []) := by
  induction packets generalizing buf with
  | nil =>
      refine ⟨[], [], by rw [readPackets, List.append_nil], ?_, Taken.refl _ _ _, h, .inr rfl⟩
      rwa [List.append_nil]
  | cons p packets ih =>
      have hp := h p List.mem_cons_self
      have hrest : ∀ q ∈ packets, Queued channel.localId q := fun q hq =>
        h q (List.mem_cons_of_mem p hq)
      rw [readPackets]
      by_cases hfull : buf.length < buflen
      · rw [if_pos hfull, wanted_eq hp, Option.bind_some]
        cases hbelongs : p.belongs channel.merge streamId with
        | false =>
            obtain ⟨bytes, rest, hread, hlen, htaken, hqueued, hend⟩ := ih buf hbuf hrest
            rw [if_neg Bool.false_ne_true, hread]
            refine ⟨bytes, p :: rest, rfl, hlen, htaken.skip hbelongs, ?_, ?_⟩
            · exact List.forall_mem_cons.mpr ⟨hp, hqueued⟩
            · rwa [queuedBytes_cons, hbelongs]
        | true =>
            have hinside := hp.inside (isData_of_belongs hbelongs)
            rw [if_pos rfl]
            by_cases hleft : p.data.length - p.dataHead ≤ buflen - buf.length
            · have hload :=
                loadMany_inside p.data p.dataHead (p.data.length - p.dataHead) (by omega)
              have hall : (p.data.drop p.dataHead).take (p.data.length - p.dataHead) =
                  p.data.drop p.dataHead := List.take_of_length_le (by rw [List.length_drop])
              rw [hall] at hload
              have hbuf' : (buf ++ p.data.drop p.dataHead).length ≤ buflen := by
                rw [List.length_append, List.length_drop]
                omega
              obtain ⟨bytes, rest, hread, hlen, htaken, hqueued, hend⟩ := ih _ hbuf' hrest
              rw [List.append_assoc] at hread hlen hend
              simp only [if_pos hleft, hload, Option.bind_some]
              exact ⟨p.data.drop p.dataHead ++ bytes, rest, hread, hlen, htaken.whole hbelongs,
                hqueued, hend⟩
            · have hload := loadMany_inside p.data p.dataHead (buflen - buf.length) (by omega)
              have htake : ((p.data.drop p.dataHead).take (buflen - buf.length)).length =
                  buflen - buf.length := by
                rw [List.length_take, List.length_drop]
                omega
              have hbuf' : (buf ++ (p.data.drop p.dataHead).take (buflen - buf.length)).length =
                  buflen := by
                rw [List.length_append, htake]
                omega
              simp only [if_neg hleft, hload, Option.bind_some,
                readPackets_full (Nat.not_lt_of_le (Nat.le_of_eq hbuf'.symm)), Option.map_some]
              refine ⟨_, _, rfl, Nat.le_of_eq hbuf', taken_part hbelongs (by omega), ?_, .inl hbuf'⟩
              exact List.forall_mem_cons.mpr ⟨hp.advance (by omega), hrest⟩
      · rw [if_neg hfull]
        refine ⟨[], p :: packets, by rw [List.append_nil], by rwa [List.append_nil],
          Taken.refl _ _ _, h, .inl ?_⟩
        rw [List.append_nil]
        omega

end Reading

/-! ### Packets that come in -/

/-- What holds between two calls: the queue is accounted for, the window covers it and stays within
its bounds, and a message that waits says what the window is going to grow by. -/
structure Sound (buflen : Nat) (s : ChannelSession) : Prop where
  queued : ∀ p ∈ s.packets, Queued s.channel.localId p
  avail : s.channel.readAvail = total Packet.left s.packets
  within : s.channel.readAvail ≤ s.channel.windowSize
  cap : s.channel.windowSize ≤ s.channel.windowSizeInitial + buflen + minAdjust
  low : s.channel.windowSizeInitial / 4 * 3 ≤ s.channel.windowSize
  fits : s.channel.windowSizeInitial + buflen + minAdjust + s.channel.packetSize + 13 < 2 ^ 32
  queue : s.channel.adjustQueue = 0
  created : s.channel.adjustCreated = s.channel.readJump
  jump : s.channel.readJump = true →
    s.channel.windowSize < s.channel.windowSizeInitial / 4 * 3 + buflen
  pending : s.channel.readJump = true →
    s.channel.adjustAdjust = adjustMessage s.channel.remoteId (expansion s.channel buflen)

/-- What packets that come in may change. -/
structure Arrives (s s' : ChannelSession) : Prop where
  channel : ∃ eof close readAvail, s'.channel =
    { s.channel with eof := eof, close := close, readAvail := readAvail }
  packets : s.packets <+: s'.packets

theorem Arrives.refl (s : ChannelSession) : Arrives s s := ⟨⟨_, _, _, rfl⟩, List.prefix_rfl⟩

theorem Arrives.trans {s t u : ChannelSession} (h : Arrives s t) (h' : Arrives t u) :
    Arrives s u := by
  obtain ⟨⟨eof, close, avail, heq⟩, hpackets⟩ := h
  obtain ⟨⟨eof', close', avail', heq'⟩, hpackets'⟩ := h'
  exact ⟨⟨eof', close', avail', by rw [heq', heq]⟩, hpackets.trans hpackets'⟩

section Arrivals
variable {buflen : Nat} {s : ChannelSession}

theorem sizeT_eq {x : Int} {n : Nat} (h : x = n) (hn : n < 2 ^ 32) : sizeT x = n := by
  rw [sizeT]
  omega

/-- How much of the data of a packet is queued. -/
def accepted (channel : Channel) (len : Nat) : Nat :=
  min (min channel.packetSize len) (channel.windowSize - channel.readAvail)

theorem packetAddData_eq (h : Sound buflen s) {data : List UInt8} {dataHead : Nat}
    (hhead : dataHead ≤ 13) (hlen : dataHead ≤ data.length)
    (hid : ntohu32 data 1 = some s.channel.localId) :
    packetAddData s data dataHead = some (if s.channel.windowSize ≤ s.channel.readAvail then s
      else { channel := { s.channel with
              eof := false
              readAvail := s.channel.readAvail + accepted s.channel (data.length - dataHead) }
             packets := s.packets ++
              [⟨data.take (dataHead + accepted s.channel (data.length - dataHead)),
                dataHead⟩] }) := by
  have hcap := h.cap
  have hfits := h.fits
  have hwithin := h.within
  rw [packetAddData, if_neg (Nat.not_lt_of_le hlen), hid, Option.map_some]
  simp only [ne_eq, not_true, if_false]
  congr 1
  by_cases hfull : s.channel.windowSize ≤ s.channel.readAvail
  · rw [if_pos hfull, if_pos hfull]
  · rw [if_neg hfull, if_neg hfull]
    have hclip : (if s.channel.packetSize < data.length - dataHead then
        s.channel.packetSize + dataHead else data.length) =
        dataHead + min s.channel.packetSize (data.length - dataHead) := by
      split <;> omega
    have hsum : sizeT (s.channel.readAvail +
        (dataHead + min s.channel.packetSize (data.length - dataHead) : Nat) - dataHead) =
        s.channel.readAvail + min s.channel.packetSize (data.length - dataHead) := by
      refine sizeT_eq (by omega) ?_
      omega
    have hroom : sizeT (s.channel.windowSize - s.channel.readAvail + dataHead) =
        dataHead + (s.channel.windowSize - s.channel.readAvail) := by
      refine sizeT_eq (by omega) ?_
      omega
    have hlast : (if s.channel.windowSize <
        s.channel.readAvail + min s.channel.packetSize (data.length - dataHead) then
        dataHead + (s.channel.windowSize - s.channel.readAvail)
        else dataHead + min s.channel.packetSize (data.length - dataHead)) =
        dataHead + accepted s.channel (data.length - dataHead) := by
      rw [accepted]
      split <;> omega
    have hnew : sizeT (s.channel.readAvail +
        (dataHead + accepted s.channel (data.length - dataHead) : Nat) - dataHead) =
        s.channel.readAvail + accepted s.channel (data.length - dataHead) := by
      have hle : accepted s.channel (data.length - dataHead) ≤
          s.channel.windowSize - s.channel.readAvail := Nat.min_le_right _ _
      refine sizeT_eq (by omega) ?_
      omega
    simp only [hclip, hsum, hroom, hlast, hnew]

/-- A packet that is queued in part keeps what comes before its data. -/
theorem queued_take {localId : UInt32} {data : List UInt8} {dataHead n : Nat} {msg : UInt8}
    (hmsg : data.head? = some msg) (hhead : 9 ≤ dataHead)
    (hext : msg = channelExtendedData → 13 ≤ dataHead) (hn : dataHead + n ≤ data.length)
    (hid : ntohu32 data 1 = some localId) :
    Queued localId ⟨data.take (dataHead + n), dataHead⟩ := by
  obtain ⟨a, tail, rfl⟩ : ∃ a tail, data = a :: tail := by
    cases data with
    | nil => cases hmsg
    | cons a tail => exact ⟨a, tail, rfl⟩
  obtain ⟨m, hm⟩ : ∃ m, dataHead + n = m + 1 := ⟨dataHead + n - 1, by omega⟩
  have hlen : ((a :: tail).take (dataHead + n)).length = dataHead + n := by
    rw [List.length_take]
    omega
  have hfirst : ((a :: tail).take (dataHead + n)).head? = some a := by
    rw [hm]
    rfl
  refine ⟨?_, fun _ => ?_, fun _ => hhead, fun hkind => ?_, fun _ => ?_⟩
  · show (a :: tail).take (dataHead + n) ≠ []
    rw [hm]
    exact List.cons_ne_nil _ _
  · show ntohu32 ((a :: tail).take (dataHead + n)) 1 = some localId
    rw [ntohu32_inside (by omega)] at hid ⊢
    rw [← hid, List.drop_take, List.take_take, Nat.min_eq_left (by omega)]
  · have hkind : ((a :: tail).take (dataHead + n)).head? = some channelExtendedData := hkind
    rw [hfirst] at hkind
    rw [List.head?_cons] at hmsg
    exact hext (Option.some.inj (hmsg.symm.trans hkind))
  · show dataHead ≤ ((a :: tail).take (dataHead + n)).length
    omega

theorem total_left_singleton {data : List UInt8} {dataHead : Nat}
    (h : Packet.isData ⟨data, dataHead⟩ = true) :
    total Packet.left [⟨data, dataHead⟩] = data.length - dataHead := by
  rw [total, total, Nat.add_zero, Packet.left, if_pos h]

/-- Data that comes in is queued within the window. -/
theorem packetAddData_sound (h : Sound buflen s) (data : List UInt8) (dataHead : Nat) {msg : UInt8}
    (hmsg : data.head? = some msg) (hkind : msg = channelData ∨ msg = channelExtendedData)
    (hhead : 9 ≤ dataHead) (hhead' : dataHead ≤ 13)
    (hext : msg = channelExtendedData → 13 ≤ dataHead) :
    ∃ s', packetAddData s data dataHead = some s' ∧ Sound buflen s' ∧ Arrives s s' := by
  by_cases hshort : data.length < dataHead
  · exact ⟨s, by rw [packetAddData, if_pos hshort], h, Arrives.refl s⟩
  · by_cases hid : ntohu32 data 1 = some s.channel.localId
    · rw [packetAddData_eq h hhead' (Nat.le_of_not_lt hshort) hid]
      refine ⟨_, rfl, ?_⟩
      split
      · exact ⟨h, Arrives.refl s⟩
      · have hroom : accepted s.channel (data.length - dataHead) ≤
            s.channel.windowSize - s.channel.readAvail := Nat.min_le_right _ _
        have hlen : accepted s.channel (data.length - dataHead) ≤ data.length - dataHead :=
          Nat.le_trans (Nat.min_le_left _ _) (Nat.min_le_right _ _)
        generalize accepted s.channel (data.length - dataHead) = n at hroom hlen ⊢
        have hnew := queued_take hmsg hhead hext (by omega : dataHead + n ≤ data.length) hid
        have hdata : Packet.isData ⟨data.take (dataHead + n), dataHead⟩ = true := by
          have hfirst : (data.take (dataHead + n)).head? = some msg := by
            rw [List.head?_take, if_neg (by omega), hmsg]
          rw [Packet.isData, hfirst]
          rcases hkind with rfl | rfl <;> rfl
        refine ⟨⟨?_, ?_, ?_, h.cap, h.low, h.fits, h.queue, h.created, h.jump, h.pending⟩,
          ⟨⟨_, _, _, rfl⟩, List.prefix_append _ _⟩⟩
        · intro p hp
          rcases List.mem_append.mp hp with hp | hp
          · exact h.queued p hp
          · rw [List.mem_singleton.mp hp]
            exact hnew
        · show s.channel.readAvail + n = total Packet.left (s.packets ++ _)
          rw [total_append, ← h.avail, total_left_singleton hdata, List.length_take]
          omega
        · show s.channel.readAvail + n ≤ s.channel.windowSize
          have hwithin := h.within
          omega
    · refine ⟨s, ?_, h, Arrives.refl s⟩
      have hlen : 1 + 4 ≤ data.length := by omega
      rw [ntohu32_inside hlen, Option.some.injEq] at hid
      rw [packetAddData, if_neg hshort, ntohu32_inside hlen, Option.map_some]
      simp only [ne_eq, hid, not_false_eq_true, if_true]

/-- The flags of a channel do not matter. -/
theorem Sound.flags (h : Sound buflen s) (eof close : Bool) :
    Sound buflen { s with channel := { s.channel with eof := eof, close := close } } :=
  ⟨h.queued, h.avail, h.within, h.cap, h.low, h.fits, h.queue, h.created, h.jump, h.pending⟩

theorem namesChannel_some (s : ChannelSession) (data : List UInt8) :
    ∃ named, namesChannel s data = some named := by
  rw [namesChannel]
  by_cases hlen : 5 ≤ data.length
  · rw [if_pos hlen, ntohu32_inside hlen]
    exact ⟨_, rfl⟩
  · exact ⟨false, if_neg hlen⟩

/-- A packet that is no data of the channel is kept as it is. -/
theorem Sound.add (h : Sound buflen s) {data : List UInt8} (hne : data ≠ [])
    (hdata : Packet.isData ⟨data, 0⟩ = false) :
    Sound buflen { s with packets := s.packets ++ [⟨data, 0⟩] } := by
  refine ⟨?_, ?_, h.within, h.cap, h.low, h.fits, h.queue, h.created, h.jump, h.pending⟩
  · intro p hp
    rcases List.mem_append.mp hp with hp | hp
    · exact h.queued p hp
    · obtain rfl := List.mem_singleton.mp hp
      have hnot : ¬Packet.isData ⟨data, 0⟩ = true := by rw [hdata]; exact Bool.false_ne_true
      refine ⟨hne, fun hd => absurd hd hnot, fun hd => absurd hd hnot, fun hext => ?_,
        fun hd => absurd hd hnot⟩
      refine absurd ?_ hnot
      rw [Packet.isData, hext]
      rfl
  · show s.channel.readAvail = total Packet.left (s.packets ++ _)
    have hleft : Packet.left ⟨data, 0⟩ = 0 := by
      rw [Packet.left, hdata]
      rfl
    rw [total_append, ← h.avail, total, total, hleft, Nat.add_zero]

/-- Whatever packet comes in. -/
theorem packetAdd_sound (h : Sound buflen s) {data : List UInt8} (hne : data ≠ []) :
    ∃ r, packetAdd s data = some r ∧ ∀ s', r = some s' → Sound buflen s' ∧ Arrives s s' := by
  obtain ⟨msg, tail, rfl⟩ := List.exists_cons_of_ne_nil hne
  obtain ⟨named, hnamed⟩ := namesChannel_some s (msg :: tail)
  have hload : load (msg :: tail) 0 = some msg := rfl
  have hsome : ∀ {t}, Sound buflen t → Arrives s t →
      ∀ s', some t = some s' → Sound buflen s' ∧ Arrives s s' :=
    fun ht hst s' hs' => Option.some.inj hs' ▸ ⟨ht, hst⟩
  rw [packetAdd, hload, Option.bind_some]
  by_cases hend : msg = 1
  · exact ⟨none, if_pos hend, fun s' hs' => by cases hs'⟩
  rw [if_neg hend]
  by_cases hext : msg = channelExtendedData
  · obtain ⟨t, hadd, ht, hst⟩ := packetAddData_sound h (msg :: tail) 13 rfl (.inr hext) (by omega)
      (Nat.le_refl _) fun _ => Nat.le_refl _
    rw [if_pos hext, hadd]
    exact ⟨some t, rfl, hsome ht hst⟩
  rw [if_neg hext]
  by_cases hdata : msg = channelData
  · obtain ⟨t, hadd, ht, hst⟩ := packetAddData_sound h (msg :: tail) 9 rfl (.inl hdata)
      (Nat.le_refl _) (by omega) fun hmsg => absurd hmsg hext
    rw [if_pos hdata, hadd]
    exact ⟨some t, rfl, hsome ht hst⟩
  rw [if_neg hdata, hnamed]
  by_cases heof : msg = channelEof
  · rw [if_pos heof]
    refine ⟨_, rfl, ?_⟩
    cases named with
    | false => exact hsome h (Arrives.refl s)
    | true => exact hsome (h.flags true s.channel.close) ⟨⟨_, _, _, rfl⟩, List.prefix_rfl⟩
  rw [if_neg heof]
  by_cases hclose : msg = channelClose
  · rw [if_pos hclose]
    refine ⟨_, rfl, ?_⟩
    cases named with
    | false => exact hsome h (Arrives.refl s)
    | true => exact hsome (h.flags true true) ⟨⟨_, _, _, rfl⟩, List.prefix_rfl⟩
  rw [if_neg hclose]
  by_cases htaken : takenAtOnce.contains msg = true
  · exact ⟨some s, if_pos htaken, hsome h (Arrives.refl s)⟩
  · refine ⟨_, if_neg htaken, hsome (h.add hne ?_) ⟨⟨_, _, _, rfl⟩, List.prefix_append _ _⟩⟩
    simp [Packet.isData, hext, hdata]

theorem transportReads_sound (h : Sound buflen s) {incoming : List (List UInt8)}
    (hne : ∀ data ∈ incoming, data ≠ []) :
    ∃ t well rest, transportReads s incoming = some (t, well, rest) ∧ Sound buflen t ∧
      Arrives s t := by
  induction incoming generalizing s with
  | nil => exact ⟨s, true, [], rfl, h, Arrives.refl s⟩
  | cons data incoming ih =>
      obtain ⟨r, hadd, hr⟩ := packetAdd_sound h (hne data List.mem_cons_self)
      rw [transportReads, hadd, Option.bind_some]
      cases r with
      | none => exact ⟨s, false, incoming, rfl, h, Arrives.refl s⟩
      | some u =>
          obtain ⟨hu, hsu⟩ := hr u rfl
          obtain ⟨t, well, rest, hreads, ht, hut⟩ := ih hu fun d hd =>
            hne d (List.mem_cons_of_mem data hd)
          exact ⟨t, well, rest, hreads, ht, hsu.trans hut⟩

end Arrivals

end InfoGlobe.Ssh
