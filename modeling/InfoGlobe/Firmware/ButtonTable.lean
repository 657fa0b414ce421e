import InfoGlobe.Firmware.ButtonTcpTask

/-!
The command table under arbitrary packets. A configuration packet need not bring a terminator, and
what is stored then ends in whatever the buffer holds behind the packet; the rows stay terminated
because no packet reaches the last byte of a row.
-/

namespace InfoGlobe.ButtonTcpTask
open FlatMemory StepSystem

/-- Every row holds a NUL. -/
def TableTerminated (s : State) : Prop :=
  ∀ idx : Nat, idx < numButtons → Terminated s.memory (row idx) commandMaxLen

/-- What a packet for row `idx` may do: change that row, and run the string that ends within it. -/
structure Confined (idx : Int) (s t : State) : Prop where
  others : ∀ i, i < row idx ∨ row (idx + 1) ≤ i → t.memory i = s.memory i
  command : t.commands = s.commands ∨
    (t.commands = s.commands ++ [cString s.memory (row idx) commandMaxLen] ∧
      (cString s.memory (row idx) commandMaxLen).length < commandMaxLen)

/-- Every packet with a byte other than 0 at the button position is confined to the row that this
byte addresses; opening and closing a session changes nothing. -/
def PacketConfined (s : State) (l : Label) : Prop :=
  ∀ t, step s l = some t →
    match l with
    | .recv (.data bytes) => ∀ rxBuffer, s.session = some rxBuffer →
        writeAt rxBuffer 0 bytes packetPayloadIndex ≠ 0 →
          Confined (buttonIdx (writeAt rxBuffer 0 bytes packetPayloadIndex)) s t
    | _ => t.memory = s.memory ∧ t.commands = s.commands

/-- The last byte of every row is 0. -/
def LastBytesZero (s : State) : Prop :=
  ∀ idx : Nat, idx < numButtons → s.memory (row idx + (commandMaxLen - 1)) = 0

theorem row_eq {idx : Int} (h : -1 ≤ idx) : (row idx : Int) = (idx + 1) * 64 := by
  unfold row commandMaxLen
  omega

theorem tableTerminated_of_lastBytesZero (s : State) (h : LastBytesZero s) :
    TableTerminated s := by
  intro idx hidx
  exact ⟨commandMaxLen - 1, by decide, h idx hidx⟩

theorem lastBytesZero_boot (memory : Nat → UInt8) : LastBytesZero (boot memory) := by
  intro idx hidx
  have hlast : ∀ i, i < numButtons → tableBytes[i * 64 + 63]? = some 0 := by decide +kernel
  have hoff : row idx + (commandMaxLen - 1) = row 0 + (idx * 64 + 63) := by
    unfold row commandMaxLen
    omega
  simp only [boot]
  rw [hoff, writeAt_add, hlast idx hidx, Option.getD_some]

/-- Bytes stored in one row do not reach the last byte of any row. -/
theorem lastBytesZero_store {memory : Nat → UInt8} {j : Int} {bytes : List UInt8} (hj : -1 ≤ j)
    (hlen : bytes.length < commandMaxLen)
    (h : ∀ idx : Nat, idx < numButtons → memory (row idx + (commandMaxLen - 1)) = 0) :
    ∀ idx : Nat, idx < numButtons →
      writeAt memory (row j) bytes (row idx + (commandMaxLen - 1)) = 0 := by
  intro idx hidx
  have hrow := row_eq hj
  have hrow' : (row idx : Int) = (idx + 1) * 64 := row_eq (by omega)
  have hapart : row idx + (commandMaxLen - 1) < row j ∨
      row j + bytes.length ≤ row idx + (commandMaxLen - 1) := by
    unfold commandMaxLen at *
    omega
  rcases hapart with hbelow | habove
  · rw [writeAt_of_lt memory bytes hbelow]
    exact h idx hidx
  · rw [writeAt_of_ge memory bytes habove]
    exact h idx hidx

/-- What a step does: nothing to the table, or what the effect of its packet says. -/
theorem step_cases {s t : State} {l : Label} (h : step s l = some t) :
    (t.memory = s.memory ∧ t.commands = s.commands ∧ ∀ bytes, l ≠ .recv (.data bytes)) ∨
      ∃ bytes rxBuffer, l = .recv (.data bytes) ∧ s.session = some rxBuffer ∧
        (t.memory, t.commands) = (effectOf (writeAt rxBuffer 0 bytes) bytes.length).elim
          (s.memory, s.commands) fun e =>
            ((e.perform s.memory).1, s.commands ++ (e.perform s.memory).2.toList) := by
  cases l with
  | accept rxBuffer =>
      simp only [step, Option.ite_none_right_eq_some, Option.some.injEq] at h
      obtain ⟨_, rfl⟩ := h
      exact .inl ⟨rfl, rfl, by simp⟩
  | recv r =>
      cases hs : s.session with
      | none => simp [step, hs] at h
      | some rxBuffer =>
          simp only [step, hs, Option.ite_none_right_eq_some] at h
          obtain ⟨_, h⟩ := h
          cases r with
          | closed | error =>
              obtain rfl := Option.some.inj h
              exact .inl ⟨rfl, rfl, by simp⟩
          | data bytes =>
              obtain rfl := Option.some.inj h
              refine .inr ⟨bytes, rxBuffer, rfl, rfl, ?_⟩
              simp only [infoglobePacketHandler_eq]
              cases effectOf (writeAt rxBuffer 0 bytes) bytes.length with
              | none => simp
              | some e => rfl

theorem lastBytesZero_step (s : State) (l : Label) (t : State) (h : LastBytesZero s)
    (hstep : step s l = some t) : LastBytesZero t := by
  rcases step_cases hstep with ⟨hmemory, _, _⟩ | ⟨bytes, rxBuffer, rfl, _, heffect⟩
  · unfold LastBytesZero
    rw [hmemory]
    exact h
  · unfold LastBytesZero
    rcases effectOf_cases (writeAt rxBuffer 0 bytes) bytes.length with he | ⟨stored, hlen, he⟩ | he
    all_goals
      rw [he] at heffect
      rw [(Prod.mk.inj heffect).1]
    · exact h
    · exact lastBytesZero_store (buttonIdx_range _).1 hlen h
    · exact h

theorem packetConfined_of_lastBytesZero (s : State) (l : Label) (t : State) (h : LastBytesZero s)
    (_ : step s l = some t) : PacketConfined s l := by
  intro u hu
  rcases step_cases hu with ⟨hmemory, hcommands, hl⟩ | ⟨bytes, rxBuffer, rfl, hs, heffect⟩
  · cases l with
    | accept _ => exact ⟨hmemory, hcommands⟩
    | recv r =>
        cases r with
        | data bytes => exact absurd rfl (hl bytes)
        | closed | error => exact ⟨hmemory, hcommands⟩
  · intro rxBuffer' hs' hbutton
    obtain rfl : rxBuffer = rxBuffer' := Option.some.inj (hs.symm.trans hs')
    have hidx := buttonIdx_nonneg hbutton
    have hrange := buttonIdx_range (writeAt rxBuffer 0 bytes packetPayloadIndex)
    rcases effectOf_cases (writeAt rxBuffer 0 bytes) bytes.length with he | ⟨stored, hlen, he⟩ | he
    all_goals
      rw [he] at heffect
      obtain ⟨hmemory, hcommands⟩ := Prod.mk.inj heffect
    · exact ⟨fun i _ => congrFun hmemory i, .inl hcommands⟩
    · refine ⟨fun i hi => ?_, .inl (by simpa [Effect.perform] using hcommands)⟩
      rw [hmemory]
      rcases hi with hi | hi
      · exact writeAt_of_lt s.memory stored hi
      · refine writeAt_of_ge s.memory stored ?_
        have hrow := row_eq hrange.1
        have hnext := row_eq (Int.le_add_one hrange.1)
        unfold commandMaxLen at hlen
        omega
    · refine ⟨fun i _ => congrFun hmemory i, .inr ?_⟩
      obtain ⟨n, hn⟩ := Int.eq_ofNat_of_zero_le hidx
      have hterminated : Terminated s.memory (row n) commandMaxLen :=
        tableTerminated_of_lastBytesZero s h n (by omega)
      have hreach : commandMaxLen ≤ tableEnd - row n := by
        unfold tableEnd row commandMaxLen numButtons
        unfold numButtons at hrange
        omega
      have hrun : u.commands = s.commands ++ [cString s.memory (row n) (tableEnd - row n)] := by
        simpa [Effect.perform, hn] using hcommands
      rw [hn, hrun, hterminated.cString_eq hreach]
      exact ⟨rfl, hterminated.length_cString_lt⟩

/-- For every history of packets, every row stays terminated, and every packet is confined to the
row it addresses. -/
theorem table_confined (memory : Nat → UInt8) (ls : List Label) :
    Always step TableTerminated (boot memory) ls ∧
      EachStep step PacketConfined (boot memory) ls :=
  ⟨always_of_invariant tableTerminated_of_lastBytesZero lastBytesZero_step
      (lastBytesZero_boot memory) ls,
    eachStep_of_invariant packetConfined_of_lastBytesZero lastBytesZero_step
      (lastBytesZero_boot memory) ls⟩

end InfoGlobe.ButtonTcpTask
