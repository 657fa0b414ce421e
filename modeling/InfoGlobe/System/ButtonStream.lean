import InfoGlobe.Library.FramedStream
import InfoGlobe.Firmware.ButtonTable
import InfoGlobe.System.ButtonLink

/-!
The button port and the packets of the workers as a stream. The session hands every `recv` to the
handler as one packet; what comes of a stream that is split and joined elsewhere is compared with
what its packets do when each of them is delivered alone.
-/

namespace InfoGlobe.ButtonStream
open FlatMemory StepSystem FramedStream ButtonTcpTask ButtonLink TcpWorker

/-- An open session, and how many bytes of the stream it has received. -/
structure State where
  server : ButtonTcpTask.State
  position : Nat

def step (s : State) (chunk : List UInt8) : Option State :=
  (ButtonTcpTask.step s.server (.recv (.data chunk))).map fun server =>
    { server := server, position := s.position + chunk.length }

/-- `rx_buffer` behind the `recv` of a chunk. -/
def State.rxBuffer (s : State) (chunk : List UInt8) : Nat → UInt8 :=
  writeAt (s.server.session.getD fun _ => 0) 0 chunk

/-- What the handler makes of a chunk, at the position where the chunk begins. -/
def effects (s : State) (chunk : List UInt8) : List (Nat × Effect) :=
  single s.position (effectOf (s.rxBuffer chunk) chunk.length)

/-- What a packet does when it is delivered alone. -/
def alone (r : Request) : Option Effect :=
  effectOf (writeAt (fun _ => 0) 0 r.packet) r.packet.length

/-- What the packets do one by one, each at the position where it begins. -/
def aloneEffects (requests : List Request) : List (Nat × Effect) :=
  framed Request.packet alone 0 requests

/-- A command too long for its row does nothing. -/
def Inert : Request → Prop
  | .press _ => False
  | .config _ command => 63 ≤ (encode command).length

/-- What the chunk must bring of the packet at whose first byte it begins: the byte of the same
button, a whole command, or enough of one to be recognized as too long; the terminator may also be
left over from earlier. A chunk that begins elsewhere must not look like a button packet, unless
like one that is too long. -/
def Recognized (rxBuffer : Nat → UInt8) (len : Nat) : Option Request → Prop
  | some (.press button) => buttonIdx (rxBuffer 1) = buttonIdx button
  | some (.config _ command) =>
      if (encode command).length ≤ 62 then
        3 < len ∧ (encode command).length + 3 ≤ len ∧ rxBuffer ((encode command).length + 3) = 0
      else 66 ≤ len
  | none => rxBuffer 0 = buttonCmdByte → 3 < len ∧ rxBuffer 2 = 1 ∧ 63 ≤ strnlen rxBuffer 3 (len - 3)

instance (rxBuffer : Nat → UInt8) (len : Nat) : DecidablePred (Recognized rxBuffer len)
  | some (.press button) =>
      inferInstanceAs (Decidable (buttonIdx (rxBuffer 1) = buttonIdx button))
  | some (.config _ command) =>
      inferInstanceAs (Decidable (if (encode command).length ≤ 62 then
        3 < len ∧ (encode command).length + 3 ≤ len ∧ rxBuffer ((encode command).length + 3) = 0
      else 66 ≤ len))
  | none =>
      inferInstanceAs (Decidable (rxBuffer 0 = buttonCmdByte →
        3 < len ∧ rxBuffer 2 = 1 ∧ 63 ≤ strnlen rxBuffer 3 (len - 3)))

/-- The packet that begins with the chunk is recognized, and no other one that does something
begins in it. -/
structure Orderly (requests : List Request) (s : State) (chunk : List UInt8) : Prop where
  first : Recognized (s.rxBuffer chunk) chunk.length (frameAt Request.packet 0 requests s.position)
  others : ∀ q, s.position < q → q < s.position + chunk.length →
    ∀ r ∈ frameAt Request.packet 0 requests q, Inert r

/-- No command contains a NUL. -/
def NulFree : Request → Prop
  | .press _ => True
  | .config _ command => (0 : UInt8) ∉ encode command

instance : DecidablePred NulFree
  | .press _ => isTrue trivial
  | .config _ command => inferInstanceAs (Decidable ((0 : UInt8) ∉ encode command))

theorem packet_ne_nil (r : Request) : r.packet ≠ [] := by
  cases r <;> exact List.cons_ne_nil _ _

/-! ### Packets alone -/

theorem alone_press (button : UInt8) : alone (.press button) = some (.run (buttonIdx button)) :=
  effectOf_buttonPacket _ button

theorem alone_config (button : UInt8) {command : String} (hfree : (0 : UInt8) ∉ encode command) :
    alone (.config button command) =
      if (encode command).length ≤ 62 then
        some (.store (buttonIdx button) (encode command ++ [0]))
      else none :=
  effectOf_buttonConfigPacket _ button hfree

theorem alone_eq_none_iff {r : Request} (hfree : NulFree r) : alone r = none ↔ Inert r := by
  cases r with
  | press button => simp [alone_press, Inert]
  | config button command =>
      rw [alone_config button hfree]
      simp only [Inert, ite_eq_right_iff, reduceCtorEq, imp_false]
      omega

/-! ### A chunk of the stream in the receive buffer -/

section Chunk
variable {m : Nat → UInt8} {chunk tail stream : List UInt8}

theorem getElem?_of_chunk (h : stream = chunk ++ tail) {i : Nat} (hi : i < chunk.length) :
    stream[i]? = some (writeAt m 0 chunk i) := by
  have hread : writeAt m 0 chunk i = (chunk[i]?).getD (m i) := by
    simpa using writeAt_add m 0 chunk i
  rw [h, List.getElem?_append_left hi, hread, List.getElem?_eq_getElem hi, Option.getD_some]

theorem takeWhile_take_terminated {cmd : List UInt8} (hfree : (0 : UInt8) ∉ cmd)
    (more : List UInt8) (k : Nat) :
    ((cmd ++ 0 :: more).take k).takeWhile (· ≠ 0) = cmd.take k := by
  have hall : ∀ xs : List UInt8, xs ⊆ cmd → ∀ x ∈ xs, decide (x ≠ 0) = true := by
    intro xs hsub x hx
    simpa using fun h : x = 0 => hfree (h ▸ hsub hx)
  rcases Nat.lt_or_ge cmd.length k with hlong | hshort
  · obtain ⟨j, rfl⟩ := Nat.exists_eq_add_of_lt hlong
    rw [List.take_append, List.take_of_length_le (by omega),
      List.takeWhile_append_of_pos (hall cmd (List.Subset.refl cmd))]
    have hone : cmd.length + j + 1 - cmd.length = j + 1 := by omega
    simp [hone]
  · rw [List.take_append_of_le_length hshort]
    exact List.takeWhile_eq_self_iff.mpr (hall _ (List.take_subset k cmd))

/-- The part of a command that has come with the chunk. -/
theorem cString_of_chunk {button : UInt8} {command : String} {follow : List UInt8}
    (hfree : (0 : UInt8) ∉ encode command)
    (h : buttonConfigPacket button command ++ follow = chunk ++ tail) (hlen : 3 ≤ chunk.length) :
    cString (writeAt m 0 chunk) 3 (chunk.length - 3) =
      (encode command).take (chunk.length - 3) := by
  have hread : readAt (writeAt m 0 chunk) 3 (chunk.length - 3) = chunk.drop 3 := by
    have hpart := readAt_writeAt_part m 0 chunk 3 (chunk.length - 3) (by omega)
    rwa [Nat.zero_add, List.take_of_length_le (by simp)] at hpart
  have hrest : encode command ++ [0] ++ follow = chunk.drop 3 ++ tail := by
    have hdrop := congrArg (List.drop 3) h
    rwa [List.drop_append_of_le_length hlen] at hdrop
  have hdrop : chunk.drop 3 = (encode command ++ 0 :: follow).take (chunk.length - 3) := by
    rw [List.append_cons, hrest, List.take_append_of_le_length (by simp),
      List.take_of_length_le (by simp)]
  rw [cString, hread, hdrop]
  exact takeWhile_take_terminated hfree follow _

/-- What is stored is the whole command with a terminator. -/
theorem stored_iff {rxBuffer : Nat → UInt8} {cmd : List UInt8} {k : Nat}
    (hcmd : cString rxBuffer 3 k = cmd.take k) :
    readAt rxBuffer 3 (min k cmd.length + 1) = cmd ++ [0] ↔
      cmd.length ≤ k ∧ rxBuffer (cmd.length + 3) = 0 := by
  have hlast : ∀ n, readAt rxBuffer 3 (n + 1) = readAt rxBuffer 3 n ++ [rxBuffer (n + 3)] := by
    intro n
    rw [readAt_add, Nat.add_comm n 3]
    rfl
  constructor
  · intro h
    have hlen := congrArg List.length h
    rw [length_readAt, List.length_append, List.length_singleton] at hlen
    have hmin : min k cmd.length = cmd.length := by omega
    rw [hmin, hlast] at h
    exact ⟨by omega, List.singleton_inj.mp (List.append_inj' h rfl).2⟩
  · rintro ⟨hle, hzero⟩
    rw [List.take_of_length_le hle] at hcmd
    have hprefix : cmd <+: readAt rxBuffer 3 k := hcmd ▸ List.takeWhile_prefix _
    have hread : readAt rxBuffer 3 cmd.length = cmd := by
      rw [← take_readAt rxBuffer 3 hle]
      exact (List.prefix_iff_eq_take.mp hprefix).symm
    rw [Nat.min_eq_right hle, hlast, hread, hzero]

theorem packet_head (rest : List Request) {b : UInt8}
    (h : (rest.flatMap Request.packet)[0]? = some b) : b = buttonCmdByte := by
  cases rest with
  | nil => exact absurd h (by simp)
  | cons r rest =>
      cases r <;> exact (Option.some.inj h).symm

/-- A press is taken for a press, however much comes with it. -/
theorem recognized_press {button : UInt8} {rest : List Request} (hne : chunk ≠ [])
    (h : buttonPacket button ++ rest.flatMap Request.packet = chunk ++ tail) :
    effectOf (writeAt m 0 chunk) chunk.length = alone (.press button) ↔
      Recognized (writeAt m 0 chunk) chunk.length (some (.press button)) := by
  have htype : writeAt m 0 chunk 0 = buttonCmdByte :=
    (Option.some.inj (getElem?_of_chunk (m := m) h (List.length_pos_of_ne_nil hne))).symm
  have hpress : ¬(3 < chunk.length ∧ writeAt m 0 chunk 2 = 1) := by
    rintro ⟨hlen, hflag⟩
    have hnext := packet_head rest (getElem?_of_chunk (m := m) h (i := 2) (by omega))
    exact absurd (hflag.symm.trans hnext) (by decide)
  rw [effectOf_press htype hpress, alone_press]
  simp [Recognized]

theorem recognized_config {button : UInt8} {command : String} {follow : List UInt8}
    (hfree : (0 : UInt8) ∉ encode command) (hne : chunk ≠ [])
    (h : buttonConfigPacket button command ++ follow = chunk ++ tail) :
    effectOf (writeAt m 0 chunk) chunk.length = alone (.config button command) ↔
      Recognized (writeAt m 0 chunk) chunk.length (some (.config button command)) := by
  have htype : writeAt m 0 chunk 0 = buttonCmdByte :=
    (Option.some.inj (getElem?_of_chunk (m := m) h (List.length_pos_of_ne_nil hne))).symm
  rw [alone_config button hfree]
  simp only [Recognized]
  by_cases hlen : 3 < chunk.length
  · have hbutton : writeAt m 0 chunk 1 = button :=
      (Option.some.inj (getElem?_of_chunk (m := m) h (i := 1) (by omega))).symm
    have hflag : writeAt m 0 chunk 2 = 1 :=
      (Option.some.inj (getElem?_of_chunk (m := m) h (i := 2) (by omega))).symm
    have hcmd : cString (writeAt m 0 chunk) 3 (chunk.length - 3) =
        (encode command).take (chunk.length - 3) := cString_of_chunk hfree h hlen.le
    have hstrnlen : strnlen (writeAt m 0 chunk) 3 (chunk.length - 3) =
        min (chunk.length - 3) (encode command).length := by
      rw [strnlen, hcmd, List.length_take]
    rw [effectOf_config htype hlen hflag, hbutton, hstrnlen]
    by_cases hfits : (encode command).length ≤ 62
    · have hshort : min (chunk.length - 3) (encode command).length + 1 < commandMaxLen := by
        unfold commandMaxLen
        omega
      rw [if_pos hshort, if_pos hfits, if_pos hfits, Option.some.injEq, Effect.store.injEq,
        stored_iff hcmd]
      simp only [true_and, hlen]
      exact and_congr_left fun _ => by omega
    · have hlong : min (chunk.length - 3) (encode command).length + 1 < commandMaxLen ↔
          ¬66 ≤ chunk.length := by
        unfold commandMaxLen
        omega
      simp only [if_neg hfits, hlong, ite_not, ite_eq_left_iff, reduceCtorEq, imp_false, not_not]
  · rw [effectOf_press htype fun hconfig => hlen hconfig.1]
    refine iff_of_false ?_ ?_
    · split <;> simp
    · split <;> omega

/-- A chunk that begins elsewhere. -/
theorem recognized_none {rxBuffer : Nat → UInt8} {len : Nat} :
    effectOf rxBuffer len = none ↔ Recognized rxBuffer len none := by
  by_cases htype : rxBuffer 0 = buttonCmdByte
  · by_cases hconfig : 3 < len ∧ rxBuffer 2 = 1
    · have hlong : Recognized rxBuffer len none ↔ 63 ≤ strnlen rxBuffer 3 (len - 3) :=
        ⟨fun h => (h htype).2.2, fun h _ => ⟨hconfig.1, hconfig.2, h⟩⟩
      rw [hlong, effectOf_config htype hconfig.1 hconfig.2]
      unfold commandMaxLen
      split
      · exact iff_of_false (Option.some_ne_none _) (by omega)
      · exact iff_of_true rfl (by omega)
    · rw [effectOf_press htype hconfig]
      refine iff_of_false (Option.some_ne_none _) fun h => hconfig ?_
      exact ⟨(h htype).1, (h htype).2.1⟩
  · rw [effectOf_other htype]
    exact iff_of_true rfl fun h => absurd h htype

end Chunk

/-! ### The stream -/

section Stream
variable {requests : List Request}

theorem recognized_iff (hfree : ∀ r ∈ requests, NulFree r) {m : Nat → UInt8} {p : Nat}
    {chunk tail : List UInt8} (hne : chunk ≠ [])
    (h : (requests.flatMap Request.packet).drop p = chunk ++ tail) :
    effectOf (writeAt m 0 chunk) chunk.length =
        (frameAt Request.packet 0 requests p).bind alone ↔
      Recognized (writeAt m 0 chunk) chunk.length (frameAt Request.packet 0 requests p) := by
  cases hframe : frameAt Request.packet 0 requests p with
  | none => exact recognized_none
  | some r =>
      obtain ⟨hmem, rest, hdrop⟩ := frameAt_eq_some hframe
      rw [Nat.sub_zero, h] at hdrop
      cases r with
      | press button => exact recognized_press hne hdrop.symm
      | config button command => exact recognized_config (hfree _ hmem) hne hdrop.symm

theorem others_iff (hfree : ∀ r ∈ requests, NulFree r) {q : Nat} :
    (frameAt Request.packet 0 requests q).bind alone = none ↔
      ∀ r ∈ frameAt Request.packet 0 requests q, Inert r := by
  rw [Option.bind_eq_none_iff]
  exact forall₂_congr fun r hr => alone_eq_none_iff (hfree r (frameAt_eq_some hr).1)

theorem step_of_open {s : State} (hopen : s.server.session.isSome) {chunk : List UInt8}
    (hne : chunk ≠ []) (hlen : chunk.length ≤ rxBufferLen) :
    ∃ t, step s chunk = some t ∧ t.server.session.isSome ∧
      t.position = s.position + chunk.length := by
  obtain ⟨rxBuffer, hs⟩ := Option.isSome_iff_exists.mp hopen
  have hwithin : (RecvResult.data chunk).within rxBufferLen = true :=
    RecvResult.within_data.mpr ⟨List.length_pos_of_ne_nil hne, Int.ofNat_le.mpr hlen⟩
  exact ⟨_, by rw [step, step_recv_data hs hwithin]; rfl, rfl, rfl⟩

theorem position_of_step {s t : State} {chunk : List UInt8} (h : step s chunk = some t) :
    t.position = s.position + chunk.length := by
  obtain ⟨server, _, rfl⟩ := Option.map_eq_some_iff.mp h
  rfl

theorem position_of_mem_trace {s : State} {chunks : List (List UInt8)} {e : Nat × Effect}
    (h : e ∈ trace step effects s chunks) : s.position ≤ e.1 := by
  induction chunks generalizing s with
  | nil => exact absurd h List.not_mem_nil
  | cons chunk chunks ih =>
      cases hstep : step s chunk with
      | none => simp [trace_cons_of_stuck hstep] at h
      | some t =>
          rw [trace_cons_of_step hstep] at h
          rcases List.mem_append.mp h with h | h
          · exact (position_of_mem_single h).ge
          · have hle := ih h
            rw [position_of_step hstep] at hle
            omega

theorem trace_eq_located_iff (hfree : ∀ r ∈ requests, NulFree r) {s : State}
    {chunks : List (List UInt8)} (hopen : s.server.session.isSome)
    (hchunks : ∀ chunk ∈ chunks, chunk ≠ [] ∧ chunk.length ≤ rxBufferLen)
    (hstream : (requests.flatMap Request.packet).drop s.position = chunks.flatten) :
    trace step effects s chunks =
        located (fun q => (frameAt Request.packet 0 requests q).bind alone) s.position
          chunks.flatten.length ↔
      EachStep step (Orderly requests) s chunks := by
  induction chunks generalizing s with
  | nil => exact iff_of_true rfl trivial
  | cons chunk chunks ih =>
      obtain ⟨hne, hlen⟩ := hchunks chunk List.mem_cons_self
      obtain ⟨t, hstep, ht, hposition⟩ := step_of_open hopen hne hlen
      obtain ⟨n, hn⟩ := Nat.exists_eq_add_one.mpr (List.length_pos_of_ne_nil hne)
      have htail : (requests.flatMap Request.packet).drop t.position = chunks.flatten := by
        rw [hposition, ← List.drop_drop, hstream, List.flatten_cons, List.drop_left]
      have hrest : ∀ e ∈ trace step effects t chunks, s.position + (n + 1) ≤ e.1 := by
        intro e he
        have hle := position_of_mem_trace he
        omega
      have hfirst := recognized_iff hfree (m := s.server.session.getD fun _ => 0) hne hstream
      have hchunk : Orderly requests s chunk ↔
          effectOf (s.rxBuffer chunk) chunk.length =
              (frameAt Request.packet 0 requests s.position).bind alone ∧
            ∀ q, s.position < q → q < s.position + (n + 1) →
              (frameAt Request.packet 0 requests q).bind alone = none := by
        rw [← hn]
        simp only [others_iff hfree]
        exact ⟨fun h => ⟨hfirst.mpr h.first, h.others⟩, fun h => ⟨hfirst.mp h.1, h.2⟩⟩
      rw [trace_cons_of_step hstep, eachStep_cons_of_step hstep, List.flatten_cons,
        List.length_append, hn, effects, window_eq_located_iff hrest, hchunk, and_assoc,
        ← ih ht (fun c hc => hchunks c (List.mem_cons_of_mem chunk hc)) htail, hposition, hn]

/-- The table and the commands after an effect. -/
def perform (s : (Nat → UInt8) × List (List UInt8)) (e : Nat × Effect) :
    (Nat → UInt8) × List (List UInt8) :=
  ((e.2.perform s.1).1, s.2 ++ (e.2.perform s.1).2.toList)

/-- What a run makes of the table, and the commands it runs, are the work of its effects. -/
theorem performed_of_run {s t : State} {chunks : List (List UInt8)}
    (h : run step s chunks = some t) :
    (t.server.memory, t.server.commands) =
      (trace step effects s chunks).foldl perform (s.server.memory, s.server.commands) := by
  induction chunks generalizing s with
  | nil =>
      obtain rfl : s = t := Option.some.inj h
      rfl
  | cons chunk chunks ih =>
      obtain ⟨u, hu, h⟩ := run_cons_eq_some.mp h
      rw [trace_cons_of_step hu, List.foldl_append, ih h]
      obtain ⟨server, hserver, rfl⟩ := Option.map_eq_some_iff.mp hu
      obtain ⟨_, _, hother⟩ | ⟨bytes, rxBuffer, hbytes, hs, heffect⟩ := step_cases hserver
      · exact absurd rfl (hother chunk)
      · obtain rfl : chunk = bytes := by simpa using hbytes
        simp only [effects, State.rxBuffer, hs, Option.getD_some]
        rw [heffect]
        cases effectOf (writeAt rxBuffer 0 chunk) chunk.length <;> rfl

/-- The stream does what its packets do one by one, each at its own place, for exactly the
splittings whose chunks are all orderly. -/
theorem effects_as_alone_iff {server : ButtonTcpTask.State} (hopen : server.session.isSome)
    (hfree : ∀ r ∈ requests, NulFree r) {chunks : List (List UInt8)}
    (hchunks : ∀ chunk ∈ chunks, chunk ≠ [] ∧ chunk.length ≤ rxBufferLen)
    (hstream : chunks.flatten = requests.flatMap Request.packet) :
    trace step effects ⟨server, 0⟩ chunks = aloneEffects requests ↔
      EachStep step (Orderly requests) ⟨server, 0⟩ chunks := by
  rw [aloneEffects, framed_eq_located fun r _ => packet_ne_nil r, ← hstream]
  exact trace_eq_located_iff hfree hopen hchunks hstream.symm

end Stream

/-- A session with a cleared buffer. -/
def session (memory : Nat → UInt8) : ButtonTcpTask.State where
  memory := memory
  session := some fun _ => 0
  commands := []

/-- A press and a configuration, each in one chunk. -/
theorem effects_as_alone_whole :
    trace step effects ⟨session fun _ => 0, 0⟩ [[0x76, 1], [0x76, 2, 1, 0x6c, 0x73, 0]] =
      aloneEffects [.press 1, .config 2 "ls"] := by
  have hfree : ∀ r ∈ [Request.press 1, .config 2 "ls"], NulFree r := by decide
  have hnone : ∀ q < 8, q ≠ 0 → q ≠ 2 →
      (frameAt Request.packet 0 [.press 1, .config 2 "ls"] q).isNone := by decide
  refine (effects_as_alone_iff rfl hfree (by decide) (by decide)).mpr ?_
  refine (eachStep_cons_of_step rfl _).mpr ⟨?_, (eachStep_cons_of_step rfl _).mpr ⟨?_, trivial⟩⟩
  · refine ⟨rfl, fun q hlt hq r hr => ?_⟩
    have hempty := hnone q (Nat.lt_trans hq (by decide)) (Nat.ne_of_gt hlt) (Nat.ne_of_lt hq)
    exact absurd hr (by simp [Option.isNone_iff_eq_none.mp hempty])
  · refine ⟨by decide, fun q hlt hq r hr => ?_⟩
    have hempty := hnone q hq (Nat.ne_of_gt (Nat.lt_trans (by decide) hlt)) (Nat.ne_of_gt hlt)
    exact absurd hr (by simp [Option.isNone_iff_eq_none.mp hempty])

/-- The command "vi" arrives behind its header: the header runs the command of button 1, and the
text is taken for another press. -/
theorem split_config_runs_commands :
    [[0x76, 1, 1], [0x76, 0x69, 0]].flatten = (Request.config 1 "vi").packet ∧
      (trace step effects ⟨session fun _ => 0, 0⟩ [[0x76, 1, 1], [0x76, 0x69, 0]]).map Prod.snd =
        [.run 0, .run 0] ∧
      (aloneEffects [.config 1 "vi"]).map Prod.snd = [.store 0 [0x76, 0x69, 0]] := by
  decide

end InfoGlobe.ButtonStream
