import InfoGlobe.Firmware.SshDriver

/-!
`read_channel` from its first read to its return. The copy is clamped in every turn of the loop, so
that the first bytes of the channel stay and the rest is read and dropped. The would-block test
stands behind a loop that a negative result never leaves.
-/

namespace InfoGlobe.SshDriver
open FlatMemory

/-- What `libssh2_channel_read` returns. -/
def ReadResult.rc : ReadResult → Int
  | .data bytes => bytes.length
  | .error rc => rc

def ReadResult.buffer : ReadResult → List UInt8
  | .data bytes => bytes
  | .error _ => []

/-- The variables of `read_channel`, where it has written how much so far, and how often it has
called `waitsocket`. -/
structure Channel where
  reading : Reading
  writes : List (Int × Int)
  waits : Nat
  returned : Option Int

def Channel.initial (inputBuffer : Nat → UInt8) : Channel where
  reading := Reading.initial inputBuffer
  writes := []
  waits := 0
  returned := none

/-- What one result of `libssh2_channel_read` leads to. -/
def Channel.next (bufferSize : Int) (c : Channel) (r : ReadResult) : Channel :=
  if c.returned.isSome then c
  else if 0 < r.rc then
    let n := bytesToCopy bufferSize c.reading r.buffer
    { c with
      reading := {
        inputBuffer :=
          writeAt c.reading.inputBuffer c.reading.bufferIndex.toNat (r.buffer.take n.toNat)
        bytecount := c.reading.bytecount + n
        bufferIndex := c.reading.bufferIndex + n }
      writes := c.writes ++ [(c.reading.bufferIndex, n)] }
  else if r.rc < 0 then { c with returned := some (-1) }
  -- behind the inner loop
  else if r.rc = eagain then { c with waits := c.waits + 1 }
  else if c.reading.bufferIndex < bufferSize then
    { c with
      reading := { c.reading with
        inputBuffer := writeAt c.reading.inputBuffer c.reading.bufferIndex.toNat [0] }
      writes := c.writes ++ [(c.reading.bufferIndex, 1)]
      returned := some c.reading.bytecount }
  else { c with returned := some c.reading.bytecount }

/-- `read_channel` on the results of its reads; it looks at none of them behind its return. -/
def readChannel (bufferSize : Int) (inputBuffer : Nat → UInt8) (rs : List ReadResult) : Channel :=
  rs.foldl (Channel.next bufferSize) (Channel.initial inputBuffer)

section Next
variable {bufferSize : Int} {c : Channel}

theorem next_of_returned (h : c.returned.isSome) (r : ReadResult) : c.next bufferSize r = c :=
  if_pos h

theorem foldl_of_returned (h : c.returned.isSome) (rs : List ReadResult) :
    rs.foldl (Channel.next bufferSize) c = c := by
  induction rs with
  | nil => rfl
  | cons r rs ih => rw [List.foldl_cons, next_of_returned h, ih]

theorem next_error (h : c.returned = none) {rc : Int} (hrc : rc < 0) :
    c.next bufferSize (.error rc) = { c with returned := some (-1) } := by
  have hpos : ¬0 < rc := by omega
  simp [Channel.next, h, ReadResult.rc, hrc, hpos]

theorem next_data (h : c.returned = none) {bytes : List UInt8} (hne : bytes ≠ []) :
    c.next bufferSize (.data bytes) =
      { c with
        reading := {
          inputBuffer := writeAt c.reading.inputBuffer c.reading.bufferIndex.toNat
            (bytes.take (bytesToCopy bufferSize c.reading bytes).toNat)
          bytecount := c.reading.bytecount + bytesToCopy bufferSize c.reading bytes
          bufferIndex := c.reading.bufferIndex + bytesToCopy bufferSize c.reading bytes }
        writes := c.writes ++ [(c.reading.bufferIndex, bytesToCopy bufferSize c.reading bytes)] } := by
  have hpos : 0 < (ReadResult.data bytes).rc :=
    Int.natCast_pos.mpr (List.length_pos_of_ne_nil hne)
  rw [Channel.next, if_neg (by simp [h]), if_pos hpos]
  rfl

theorem next_end (h : c.returned = none) (hroom : c.reading.bufferIndex < bufferSize) :
    c.next bufferSize (.data []) =
      { c with
        reading := { c.reading with
          inputBuffer := writeAt c.reading.inputBuffer c.reading.bufferIndex.toNat [0] }
        writes := c.writes ++ [(c.reading.bufferIndex, 1)]
        returned := some c.reading.bytecount } := by
  have hwait : (0 : Int) ≠ eagain := by decide
  simp [Channel.next, h, ReadResult.rc, hwait, hroom]

/-- A turn of the loop is the one that the task of a session takes. -/
theorem next_eq_readTurn (h : c.returned = none) {r : ReadResult} (hr : r.Possible) :
    match readTurn bufferSize c.reading r with
    | .again t => (c.next bufferSize r).reading = t ∧ (c.next bufferSize r).returned = none
    | .return m n =>
        (c.next bufferSize r).reading.inputBuffer = m ∧ (c.next bufferSize r).returned = some n := by
  cases r with
  | error rc =>
      rw [next_error h hr]
      exact ⟨rfl, rfl⟩
  | data bytes =>
      cases bytes with
      | nil =>
          have hwait : (0 : Int) ≠ eagain := by decide
          by_cases hroom : c.reading.bufferIndex < bufferSize
          all_goals simp [readTurn, Channel.next, h, ReadResult.rc, hwait, hroom]
      | cons b bytes =>
          have hpos : (0 : Int) < bytes.length + 1 := by omega
          simp [readTurn, Channel.next, h, ReadResult.rc, ReadResult.buffer, hpos]

end Next

/-! ### The first bytes of the channel -/

/-- A write of so many bytes at an offset stays within the buffer. -/
structure Inside (bufferSize : Int) (w : Int × Int) : Prop where
  offset : 0 ≤ w.1
  count : 0 ≤ w.2
  fits : w.1 + w.2 ≤ bufferSize

/-- Behind chunks that make up `past` their first bytes are in the buffer, with room left for the
terminator. -/
structure Gathered (bufferSize : Nat) (inputBuffer : Nat → UInt8) (past : List UInt8)
    (c : Channel) : Prop where
  index : c.reading.bufferIndex = (min past.length (bufferSize - 1) : Nat)
  counted : c.reading.bytecount = c.reading.bufferIndex
  stored : readAt c.reading.inputBuffer 0 (min past.length (bufferSize - 1)) =
    past.take (bufferSize - 1)
  outside : ∀ i, bufferSize ≤ i → c.reading.inputBuffer i = inputBuffer i
  inside : ∀ w ∈ c.writes, Inside bufferSize w
  waits : c.waits = 0
  returned : c.returned = none

theorem gathered_initial (bufferSize : Nat) (inputBuffer : Nat → UInt8) :
    Gathered bufferSize inputBuffer [] (Channel.initial inputBuffer) := by
  constructor <;> simp [Channel.initial, Reading.initial]

/-- The clamp leaves as much of the chunk as there is room for. -/
theorem bytesToCopy_eq {bufferSize n : Nat} {s : Reading} (hsize : 1 ≤ bufferSize)
    (hindex : s.bufferIndex = (min n (bufferSize - 1) : Nat)) (bytes : List UInt8) :
    bytesToCopy bufferSize s bytes = (min bytes.length (bufferSize - 1 - n) : Nat) := by
  unfold bytesToCopy
  split <;> omega

theorem gathered_next {bufferSize : Nat} (hsize : 1 ≤ bufferSize) {inputBuffer : Nat → UInt8}
    {past : List UInt8} {c : Channel} (h : Gathered bufferSize inputBuffer past c)
    {chunk : List UInt8} (hchunk : chunk ≠ []) :
    Gathered bufferSize inputBuffer (past ++ chunk) (c.next bufferSize (.data chunk)) := by
  have hcopy := bytesToCopy_eq hsize h.index chunk
  have hlen : (chunk.take (min chunk.length (bufferSize - 1 - past.length))).length =
      min chunk.length (bufferSize - 1 - past.length) := by
    simp
  have hindex : (past ++ chunk).length ⊓ (bufferSize - 1) =
      min past.length (bufferSize - 1) + min chunk.length (bufferSize - 1 - past.length) := by
    rw [List.length_append]
    omega
  have hoffset : c.reading.bufferIndex.toNat = min past.length (bufferSize - 1) := by
    rw [h.index, Int.toNat_natCast]
  rw [next_data h.returned hchunk, hoffset, hcopy, Int.toNat_natCast]
  refine ⟨?_, ?_, ?_, ?_, ?_, h.waits, h.returned⟩
  · simp only [h.index, hindex]
    omega
  · simp only [h.counted]
  · have happend := readAt_writeAt_append c.reading.inputBuffer 0 (min past.length (bufferSize - 1))
      (chunk.take (min chunk.length (bufferSize - 1 - past.length)))
    rw [Nat.zero_add, hlen] at happend
    rw [hindex, happend, h.stored, List.take_append]
    congr 1
    exact List.take_eq_take_iff.mpr (by omega)
  · intro i hi
    rw [← h.outside i hi]
    exact writeAt_of_ge _ _ (by omega)
  · intro w hw
    rcases List.mem_append.mp hw with hw | hw
    · exact h.inside w hw
    · obtain rfl := List.mem_singleton.mp hw
      refine ⟨?_, ?_, ?_⟩ <;> simp only [h.index] <;> omega

theorem gathered_chunks {bufferSize : Nat} (hsize : 1 ≤ bufferSize) {inputBuffer : Nat → UInt8}
    {past : List UInt8} {c : Channel} (h : Gathered bufferSize inputBuffer past c)
    {chunks : List (List UInt8)} (hchunks : ∀ chunk ∈ chunks, chunk ≠ []) :
    Gathered bufferSize inputBuffer (past ++ chunks.flatten)
      ((chunks.map .data).foldl (Channel.next bufferSize) c) := by
  induction chunks generalizing past c with
  | nil => simpa using h
  | cons chunk chunks ih =>
      have hnext := gathered_next hsize h (hchunks chunk List.mem_cons_self)
      have hrest := ih hnext fun d hd => hchunks d (List.mem_cons_of_mem chunk hd)
      simpa using hrest

/-- What the caller finds behind a return: the first bytes of the channel with a terminator, their
number as the result, and nothing else touched. -/
structure Answered (bufferSize : Nat) (inputBuffer : Nat → UInt8) (total : List UInt8)
    (c : Channel) : Prop where
  inside : ∀ w ∈ c.writes, Inside bufferSize w
  outside : ∀ i, bufferSize ≤ i → c.reading.inputBuffer i = inputBuffer i
  stored : readAt c.reading.inputBuffer 0 (min total.length (bufferSize - 1) + 1) =
    total.take (bufferSize - 1) ++ [0]
  returned : c.returned = some ((min total.length (bufferSize - 1) : Nat) : Int)

theorem answered_of_gathered {bufferSize : Nat} (hsize : 1 ≤ bufferSize)
    {inputBuffer : Nat → UInt8} {total : List UInt8} {c : Channel}
    (h : Gathered bufferSize inputBuffer total c) :
    Answered bufferSize inputBuffer total (c.next bufferSize (.data [])) := by
  have hroom : c.reading.bufferIndex < bufferSize := by
    rw [h.index]
    omega
  have hoffset : c.reading.bufferIndex.toNat = min total.length (bufferSize - 1) := by
    rw [h.index, Int.toNat_natCast]
  rw [next_end h.returned hroom, hoffset]
  refine ⟨?_, ?_, ?_, ?_⟩
  · intro w hw
    rcases List.mem_append.mp hw with hw | hw
    · exact h.inside w hw
    · obtain rfl := List.mem_singleton.mp hw
      refine ⟨?_, ?_, ?_⟩ <;> simp only [h.index] <;> omega
  · intro i hi
    rw [← h.outside i hi]
    exact writeAt_of_ge _ _ (by simp; omega)
  · have happend := readAt_writeAt_append c.reading.inputBuffer 0
      (min total.length (bufferSize - 1)) [0]
    rw [Nat.zero_add] at happend
    rw [← h.stored]
    exact happend
  · exact congrArg some (h.counted.trans h.index)

/-- The first bytes of any number of chunks, as many as fit in front of the terminator, are stored
and counted; every chunk is read before `read_channel` returns. -/
theorem read_channel_keeps_first_bytes {bufferSize : Nat} (hsize : 1 ≤ bufferSize)
    (inputBuffer : Nat → UInt8) {chunks : List (List UInt8)}
    (hchunks : ∀ chunk ∈ chunks, 1 ≤ chunk.length ∧ chunk.length ≤ chunkSize) :
    (readChannel bufferSize inputBuffer (chunks.map .data)).returned = none ∧
      Answered bufferSize inputBuffer chunks.flatten
        (readChannel bufferSize inputBuffer (chunks.map .data ++ [.data []])) := by
  have hne : ∀ chunk ∈ chunks, chunk ≠ [] :=
    fun chunk hchunk => List.ne_nil_of_length_pos (hchunks chunk hchunk).1
  have hgathered := gathered_chunks hsize (gathered_initial bufferSize inputBuffer) hne
  rw [List.nil_append] at hgathered
  refine ⟨hgathered.returned, ?_⟩
  rw [readChannel, List.foldl_append]
  exact answered_of_gathered hsize hgathered

/-- A buffer of four bytes and two chunks of two. -/
theorem read_channel_keeps_first_bytes_of_four :
    Answered 4 (fun _ => 7) [1, 2, 3, 4]
      (readChannel 4 (fun _ => 7) ([[1, 2], [3, 4]].map .data ++ [.data []])) :=
  (@read_channel_keeps_first_bytes 4 (by decide) (fun _ => 7) [[1, 2], [3, 4]] (by decide)).2

/-! ### Would-block results -/

def wouldBlock : ReadResult := .error eagain

/-- A negative result other than the would-block one. -/
def ReadResult.fails : ReadResult → Bool
  | .data _ => false
  | .error rc => rc ≠ eagain

/-- The results up to the first failure. -/
def delivered (rs : List ReadResult) : List ReadResult := rs.takeWhile fun r => !r.fails

/-- `read_channel` waits for the socket at every would-block result, and apart from that it does
what it does without these results; it returns -1 for other negative results only. -/
structure WouldBlockInvisible (bufferSize : Int) (inputBuffer : Nat → UInt8)
    (rs : List ReadResult) : Prop where
  waits : (readChannel bufferSize inputBuffer (rs ++ [.data []])).waits =
    (delivered rs).count wouldBlock
  content : (readChannel bufferSize inputBuffer (rs ++ [.data []])).reading.inputBuffer =
    (readChannel bufferSize inputBuffer
      (rs.filter (· ≠ wouldBlock) ++ [.data []])).reading.inputBuffer
  returned : (readChannel bufferSize inputBuffer (rs ++ [.data []])).returned =
    (readChannel bufferSize inputBuffer (rs.filter (· ≠ wouldBlock) ++ [.data []])).returned
  failed : (readChannel bufferSize inputBuffer (rs ++ [.data []])).returned = some (-1) →
    ∃ r ∈ rs, r.fails = true

/-- A would-block result is negative, and a negative result has left both loops already. -/
theorem waits_next (bufferSize : Int) (c : Channel) (r : ReadResult) :
    (c.next bufferSize r).waits = c.waits := by
  unfold Channel.next
  split
  · rfl
  · split
    · rfl
    · by_cases hneg : r.rc < 0
      · rw [if_pos hneg]
      · rw [if_neg hneg]
        have hother : ¬r.rc = eagain := by
          intro heq
          exact hneg (heq.trans_lt (by decide))
        rw [if_neg hother]
        split <;> rfl

theorem waits_readChannel (bufferSize : Int) (inputBuffer : Nat → UInt8) (rs : List ReadResult) :
    (readChannel bufferSize inputBuffer rs).waits = 0 := by
  have hfold : ∀ c : Channel, (rs.foldl (Channel.next bufferSize) c).waits = c.waits := by
    induction rs with
    | nil => exact fun c => rfl
    | cons r rs ih => exact fun c => (ih _).trans (waits_next bufferSize c r)
  exact hfold _

/-- A result that neither fails nor would block is a chunk. -/
theorem exists_bytes {r : ReadResult} (hfails : r.fails = false) (hother : r ≠ wouldBlock) :
    ∃ bytes, r = .data bytes := by
  cases r with
  | data bytes => exact ⟨bytes, rfl⟩
  | error rc =>
      obtain rfl : rc = eagain := by simpa [ReadResult.fails] using hfails
      exact absurd rfl hother

theorem exists_chunks {rs : List ReadResult} (hne : ∀ r ∈ rs, r ≠ .data [])
    (hdata : ∀ r ∈ rs, r.fails = false ∧ r ≠ wouldBlock) :
    ∃ chunks : List (List UInt8), (∀ chunk ∈ chunks, chunk ≠ []) ∧ rs = chunks.map .data := by
  induction rs with
  | nil => exact ⟨[], by simp, rfl⟩
  | cons r rs ih =>
      obtain ⟨hr, hrest⟩ := List.forall_mem_cons.mp hne
      obtain ⟨⟨hfails, hother⟩, htail⟩ := List.forall_mem_cons.mp hdata
      obtain ⟨chunks, hchunks, rfl⟩ := ih hrest htail
      obtain ⟨bytes, rfl⟩ := exists_bytes hfails hother
      have hbytes : bytes ≠ [] := fun hnil => hr (congrArg ReadResult.data hnil)
      exact ⟨bytes :: chunks, List.forall_mem_cons.mpr ⟨hbytes, hchunks⟩, rfl⟩

/-- Behind the first failure nothing matters. -/
theorem foldl_of_fails {bufferSize : Int} {c : Channel} (h : c.returned = none) {r : ReadResult}
    (hr : r.Possible) (hfails : r.fails = true) (rs : List ReadResult) :
    (r :: rs).foldl (Channel.next bufferSize) c = { c with returned := some (-1) } := by
  cases r with
  | data bytes => exact absurd hfails (by simp [ReadResult.fails])
  | error rc =>
      rw [List.foldl_cons, next_error h hr]
      exact foldl_of_returned rfl rs

/-- Where no would-block result is delivered, leaving them out changes nothing: they all stand
behind the first failure. -/
theorem foldl_without_wouldBlock {bufferSize : Int} {rs : List ReadResult}
    (hrs : ∀ r ∈ rs, r.Possible ∧ r ≠ .data []) (hnone : wouldBlock ∉ delivered rs) {c : Channel}
    (hc : c.returned = none) :
    (rs ++ [ReadResult.data []]).foldl (Channel.next bufferSize) c =
      (rs.filter (· ≠ wouldBlock) ++ [ReadResult.data []]).foldl (Channel.next bufferSize) c := by
  induction rs generalizing c with
  | nil => rfl
  | cons r rs ih =>
      obtain ⟨⟨hpossible, hr⟩, hrest⟩ := List.forall_mem_cons.mp hrs
      cases hfails : r.fails with
      | true =>
          have hother : r ≠ wouldBlock := by
            rintro rfl
            exact absurd hfails (by decide)
          rw [List.filter_cons_of_pos (by simpa), List.cons_append, List.cons_append,
            foldl_of_fails hc hpossible hfails, foldl_of_fails hc hpossible hfails]
      | false =>
          rw [delivered, List.takeWhile_cons_of_pos (by simp [hfails]), List.mem_cons, not_or]
            at hnone
          have hother := Ne.symm hnone.1
          obtain ⟨bytes, rfl⟩ := exists_bytes hfails hother
          have hbytes : bytes ≠ [] := fun hnil => hr (congrArg ReadResult.data hnil)
          rw [List.filter_cons_of_pos (by simpa), List.cons_append, List.cons_append,
            List.foldl_cons, List.foldl_cons]
          refine ih hrest hnone.2 ?_
          rw [next_data hc hbytes]
          exact hc

/-- Only a failure makes `read_channel` return -1. -/
theorem exists_fails_of_returned {bufferSize : Nat} (hsize : 1 ≤ bufferSize)
    {inputBuffer : Nat → UInt8} {rs : List ReadResult}
    (hrs : ∀ r ∈ rs, r.Possible ∧ r ≠ .data []) (hnone : wouldBlock ∉ delivered rs)
    (hreturned : (readChannel bufferSize inputBuffer (rs ++ [.data []])).returned = some (-1)) :
    ∃ r ∈ rs, r.fails = true := by
  by_contra hall
  have hfails : ∀ r ∈ rs, r.fails = false := by
    intro r hr
    exact Bool.eq_false_iff.mpr fun hfails => hall ⟨r, hr, hfails⟩
  have hwhole : delivered rs = rs := by
    refine List.takeWhile_eq_self_iff.mpr fun r hr => ?_
    simp [hfails r hr]
  rw [hwhole] at hnone
  obtain ⟨chunks, hchunks, rfl⟩ := exists_chunks (fun r hr => (hrs r hr).2) fun r hr =>
    ⟨hfails r hr, fun heq => hnone (heq ▸ hr)⟩
  have hgathered := gathered_chunks hsize (gathered_initial bufferSize inputBuffer) hchunks
  have hanswer := answered_of_gathered hsize hgathered
  rw [readChannel, List.foldl_append, List.foldl_cons, List.foldl_nil, hanswer.returned,
    Option.some.injEq] at hreturned
  omega

/-- Would-block results are invisible exactly when `read_channel` meets none before it fails or
comes to the end of the channel. -/
theorem would_block_invisible_iff {bufferSize : Nat} (hsize : 1 ≤ bufferSize)
    (inputBuffer : Nat → UInt8) {rs : List ReadResult}
    (hrs : ∀ r ∈ rs, r.Possible ∧ r ≠ .data []) :
    WouldBlockInvisible bufferSize inputBuffer rs ↔ wouldBlock ∉ delivered rs := by
  constructor
  · intro h
    have hwaits := h.waits
    rw [waits_readChannel] at hwaits
    exact List.count_eq_zero.mp hwaits.symm
  · intro hnone
    have hread : readChannel bufferSize inputBuffer (rs ++ [.data []]) =
        readChannel bufferSize inputBuffer (rs.filter (· ≠ wouldBlock) ++ [.data []]) :=
      foldl_without_wouldBlock hrs hnone (c := Channel.initial inputBuffer) rfl
    have hcount : (delivered rs).count wouldBlock = 0 := List.count_eq_zero.mpr hnone
    refine ⟨?_, by rw [hread], by rw [hread], exists_fails_of_returned hsize hrs hnone⟩
    rw [waits_readChannel, hcount]

theorem would_block_invisible_failing_channel :
    WouldBlockInvisible (4096 : Nat) (fun _ => 0) [.data [0x61], .error (-43), wouldBlock] :=
  (would_block_invisible_iff (by decide) (fun _ => 0) (by decide)).mpr (by decide)

/-- The answer is not there yet at the first read. -/
theorem would_block_ends_reading :
    ¬WouldBlockInvisible (4096 : Nat) (fun _ => 0) [wouldBlock, .data [0x61]] := by
  intro h
  exact absurd h.returned (by decide)

end InfoGlobe.SshDriver
