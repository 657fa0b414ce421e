import InfoGlobe.Firmware.ButtonTcpTask

/-!
Which packets the handler treats as a whole in themselves. It reads the button byte of a packet that
has none, copies one byte behind a command without a terminator, and takes a button byte of 0 for
the row in front of the table.
-/

namespace InfoGlobe.ButtonTcpTask
open FlatMemory

def Effect.idx : Effect → Int
  | .store idx _ | .run idx => idx

def InTable (i : Nat) : Prop := row 0 ≤ i ∧ i < tableEnd

/-- The packet selects a row of the table, and what it does depends on its bytes and on the table
only. -/
structure Contained (packet : List UInt8) : Prop where
  index : ∀ rxBuffer, ∀ e ∈ effectOf (writeAt rxBuffer 0 packet) packet.length,
    0 ≤ e.idx ∧ e.idx < numButtons
  effect : ∀ rxBuffer rxBuffer', effectOf (writeAt rxBuffer 0 packet) packet.length =
    effectOf (writeAt rxBuffer' 0 packet) packet.length
  command : ∀ rxBuffer rxBuffer' memory memory', (∀ i, InTable i → memory i = memory' i) →
    (infoglobePacketHandler memory (writeAt rxBuffer 0 packet) packet.length).2 =
      (infoglobePacketHandler memory' (writeAt rxBuffer' 0 packet) packet.length).2
  table : ∀ rxBuffer rxBuffer' memory memory', (∀ i, InTable i → memory i = memory' i) →
    ∀ i, InTable i →
      (infoglobePacketHandler memory (writeAt rxBuffer 0 packet) packet.length).1 i =
        (infoglobePacketHandler memory' (writeAt rxBuffer' 0 packet) packet.length).1 i

/-- The text of a configuration packet. -/
def commandText (packet : List UInt8) : List UInt8 := (packet.drop 3).takeWhile (· ≠ 0)

/-- A button packet that brings all that the handler reads of it: the byte of a button, which is
not 0, and the terminator of a command that is stored. -/
def SelfContained (packet : List UInt8) : Prop :=
  packet[0]? = some buttonCmdByte →
    if 3 < packet.length ∧ packet[2]? = some 1 then
      commandMaxLen ≤ (commandText packet).length + 1 ∨
        (0 ∈ packet.drop 3 ∧ packet[1]? ≠ some 0)
    else packet[1]? ≠ none ∧ packet[1]? ≠ some 0

instance : DecidablePred SelfContained := fun packet =>
  inferInstanceAs (Decidable (packet[0]? = some buttonCmdByte → ite _ _ _))

theorem writeAt_of_getElem? {packet : List UInt8} {i : Nat} {b : UInt8} (h : packet[i]? = some b)
    (m : Nat → UInt8) : writeAt m 0 packet i = b := by
  simp [writeAt, h]

theorem cString_of_packet {packet : List UInt8} (h : 3 ≤ packet.length) (m : Nat → UInt8) :
    cString (writeAt m 0 packet) 3 (packet.length - 3) = commandText packet := by
  have hread := readAt_writeAt_part m 0 packet 3 (packet.length - 3) (by omega)
  rw [Nat.zero_add, List.take_of_length_le (by simp)] at hread
  rw [cString, hread, commandText]

/-- A command without a terminator is the rest of the packet. -/
theorem readAt_commandText {packet : List UInt8} (h : 3 ≤ packet.length) (m : Nat → UInt8) :
    readAt (writeAt m 0 packet) 3 ((commandText packet).length + 1) =
      if 0 ∈ packet.drop 3 then commandText packet ++ [0]
      else commandText packet ++ [m packet.length] := by
  have hsplit : commandText packet ++ (packet.drop 3).dropWhile (· ≠ 0) = packet.drop 3 :=
    List.takeWhile_append_dropWhile
  have hlen := congrArg List.length hsplit
  rw [List.length_append, List.length_drop] at hlen
  by_cases hmem : 0 ∈ packet.drop 3
  · rw [if_pos hmem]
    have hrest : (packet.drop 3).dropWhile (· ≠ 0) ≠ [] := by
      intro hnil
      have hall := List.dropWhile_eq_nil_iff.mp hnil 0 hmem
      simp at hall
    obtain ⟨b, rest, hb⟩ := List.exists_cons_of_ne_nil hrest
    have hzero : b = 0 := by
      have hhead := List.head?_dropWhile_not (fun x : UInt8 => decide (x ≠ 0)) (packet.drop 3)
      rw [hb, List.head?_cons] at hhead
      simpa using hhead
    rw [hb, hzero] at hsplit
    rw [hb, List.length_cons] at hlen
    have hread := readAt_writeAt_part m 0 packet 3 ((commandText packet).length + 1) (by omega)
    rw [Nat.zero_add, ← hsplit] at hread
    rw [hread, List.take_append, List.take_of_length_le (by omega)]
    simp
  · rw [if_neg hmem]
    have hwhole : commandText packet = packet.drop 3 := by
      refine List.takeWhile_eq_self_iff.mpr fun x hx => ?_
      simpa using fun heq : x = 0 => hmem (heq ▸ hx)
    have hdrop : (packet.drop 3).length = packet.length - 3 := List.length_drop
    have hread := readAt_writeAt_part m 0 packet 3 (packet.length - 3) (by omega)
    rw [Nat.zero_add, List.take_of_length_le (by omega)] at hread
    have hend : 3 + (packet.length - 3) = packet.length := by omega
    rw [hwhole, hdrop, readAt_add, hread, hend]
    have hbehind : writeAt m 0 packet packet.length = m packet.length :=
      writeAt_of_ge m packet (by omega)
    simp [readAt, hbehind]

section Packet
variable {packet : List UInt8}

/-- An effect that no earlier content of the buffer has a part in, on a row of the table. -/
theorem contained_of_effect {e : Option Effect}
    (he : ∀ m, effectOf (writeAt m 0 packet) packet.length = e)
    (hidx : ∀ x ∈ e, 0 ≤ x.idx ∧ x.idx < numButtons) : Contained packet := by
  refine ⟨fun m x hx => hidx x (he m ▸ hx), fun m m' => (he m).trans (he m').symm, ?_, ?_⟩
  · intro m m' memory memory' hagree
    rw [infoglobePacketHandler_eq, infoglobePacketHandler_eq, he, he]
    cases e with
    | none => rfl
    | some x =>
        cases x with
        | store idx bytes => rfl
        | run idx =>
            obtain ⟨hnonneg, hlt⟩ := hidx _ rfl
            have hread : readAt memory (row idx) (tableEnd - row idx) =
                readAt memory' (row idx) (tableEnd - row idx) := by
              refine readAt_congr fun i hi => hagree _ ⟨?_, by omega⟩
              simp only [Effect.idx, row, commandMaxLen] at hnonneg ⊢
              omega
            simp [Effect.perform, cString, hread]
  · intro m m' memory memory' hagree i hi
    rw [infoglobePacketHandler_eq, infoglobePacketHandler_eq, he, he]
    cases e with
    | none => exact hagree i hi
    | some x =>
        cases x with
        | run idx => exact hagree i hi
        | store idx bytes => simp [Effect.perform, writeAt, hagree i hi]

theorem effectOf_configPacket (htype : packet[0]? = some buttonCmdByte) (hlen : 3 < packet.length)
    (hflag : packet[2]? = some 1) {b : UInt8} (hbutton : packet[1]? = some b) (m : Nat → UInt8) :
    effectOf (writeAt m 0 packet) packet.length =
      if (commandText packet).length + 1 < commandMaxLen then
        some (.store (buttonIdx b)
          (readAt (writeAt m 0 packet) 3 ((commandText packet).length + 1)))
      else none := by
  rw [effectOf_config (writeAt_of_getElem? htype m) hlen (writeAt_of_getElem? hflag m), strnlen,
    cString_of_packet hlen.le, writeAt_of_getElem? hbutton]

theorem effectOf_pressPacket (htype : packet[0]? = some buttonCmdByte)
    (hpress : ¬(3 < packet.length ∧ packet[2]? = some 1)) (m : Nat → UInt8) :
    effectOf (writeAt m 0 packet) packet.length =
      some (.run (buttonIdx (writeAt m 0 packet 1))) := by
  refine effectOf_press (writeAt_of_getElem? htype m) ?_
  rintro ⟨hlen, hflag⟩
  refine hpress ⟨hlen, ?_⟩
  have htwo : packet[2]? = some packet[2] := List.getElem?_eq_getElem (by omega)
  rw [writeAt_of_getElem? htwo] at hflag
  rw [htwo, hflag]

/-- Row -1 is not a row of the table. -/
theorem not_contained_of_zero {m : Nat → UInt8} {e : Effect}
    (he : effectOf (writeAt m 0 packet) packet.length = some e) (hidx : e.idx = buttonIdx 0) :
    ¬Contained packet := by
  intro h
  have hrange := (h.index m e he).1
  rw [hidx] at hrange
  exact absurd hrange (by decide)

theorem contained_config_iff (htype : packet[0]? = some buttonCmdByte) (hlen : 3 < packet.length)
    (hflag : packet[2]? = some 1) :
    Contained packet ↔ commandMaxLen ≤ (commandText packet).length + 1 ∨
      (0 ∈ packet.drop 3 ∧ packet[1]? ≠ some 0) := by
  have hbutton : packet[1]? = some packet[1] := List.getElem?_eq_getElem (by omega)
  have heffect := effectOf_configPacket htype hlen hflag hbutton
  by_cases hlong : commandMaxLen ≤ (commandText packet).length + 1
  · refine iff_of_true (contained_of_effect (e := none) ?_ (by simp)) (.inl hlong)
    intro m
    rw [heffect, if_neg (Nat.not_lt.mpr hlong)]
  · have hfits := Nat.lt_of_not_le hlong
    simp only [if_pos hfits, readAt_commandText hlen.le] at heffect
    rw [or_iff_right hlong]
    constructor
    · intro h
      constructor
      · by_contra hmem
        have hsame := h.effect (fun _ => 0) fun _ => 1
        simp [heffect, hmem] at hsame
      · intro hzero
        have hb : packet[1] = 0 := Option.some.inj (hbutton.symm.trans hzero)
        rw [hb] at heffect
        exact not_contained_of_zero (heffect fun _ => 0) rfl h
    · rintro ⟨hmem, hzero⟩
      simp only [if_pos hmem] at heffect
      refine contained_of_effect heffect fun x hx => ?_
      obtain rfl := Option.some.inj hx
      refine ⟨buttonIdx_nonneg fun hb => hzero (hb ▸ hbutton), (buttonIdx_range _).2⟩

theorem contained_press_iff (htype : packet[0]? = some buttonCmdByte)
    (hpress : ¬(3 < packet.length ∧ packet[2]? = some 1)) :
    Contained packet ↔ packet[1]? ≠ none ∧ packet[1]? ≠ some 0 := by
  have heffect := effectOf_pressPacket htype hpress
  cases hbutton : packet[1]? with
  | none =>
      refine iff_of_false ?_ (by simp)
      have hbehind : writeAt (fun _ => 0) 0 packet 1 = (0 : UInt8) := by simp [writeAt, hbutton]
      exact not_contained_of_zero (heffect fun _ => 0) (congrArg buttonIdx hbehind)
  | some b =>
      simp only [writeAt_of_getElem? hbutton] at heffect
      by_cases hzero : b = 0
      · subst hzero
        exact iff_of_false (not_contained_of_zero (heffect fun _ => 0) rfl) (by simp)
      · refine iff_of_true (contained_of_effect heffect fun x hx => ?_) (by simpa using hzero)
        obtain rfl := Option.some.inj hx
        exact ⟨buttonIdx_nonneg hzero, (buttonIdx_range _).2⟩

/-- The packets that stay in the table, and whose effect depends on nothing else. -/
theorem packet_contained_iff (hlen : 1 ≤ packet.length) :
    Contained packet ↔ SelfContained packet := by
  by_cases htype : packet[0]? = some buttonCmdByte
  · simp only [SelfContained, htype, forall_const]
    by_cases hconfig : 3 < packet.length ∧ packet[2]? = some 1
    · rw [if_pos hconfig]
      exact contained_config_iff htype hconfig.1 hconfig.2
    · rw [if_neg hconfig]
      exact contained_press_iff htype hconfig
  · refine iff_of_true (contained_of_effect (e := none) ?_ (by simp)) fun h => absurd h htype
    intro m
    have hzero : packet[0]? = some packet[0] := List.getElem?_eq_getElem (by omega)
    refine effectOf_other ?_
    rw [writeAt_of_getElem? hzero]
    exact fun heq => htype (hzero.trans (congrArg some heq))

end Packet

theorem packet_contained_press : Contained [0x76, 3] :=
  (packet_contained_iff (by decide)).mpr (by decide)

/-- The type byte alone: which command runs depends on what the buffer held before. -/
theorem type_byte_not_contained : ¬Contained [0x76] := by
  intro h
  exact absurd (h.effect (fun _ => 1) fun _ => 2) (by decide)

end InfoGlobe.ButtonTcpTask
