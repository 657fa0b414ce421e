import InfoGlobe.Library.RegisterFile
import InfoGlobe.Firmware.ButtonTcpTask
import InfoGlobe.Client.TcpWorker

/-!
The button workers of the client together with the button port. Packets that arrive whole make the
command table a register file: a press runs the latest command that fits, for any history of longer
and shorter commands on any of the buttons.
-/

namespace InfoGlobe.ButtonLink
open FlatMemory StepSystem RegisterFile ButtonTcpTask TcpWorker

inductive Request
  | press (button : UInt8)
  | config (button : UInt8) (command : String)

def Request.packet : Request → List UInt8
  | .press button => buttonPacket button
  | .config button command => buttonConfigPacket button command

/-- What reaches the button port: its sessions open and close, and workers' packets come in. -/
inductive Event
  | accept (rxBuffer : Nat → UInt8)
  | deliver (r : Request)
  | closed
  | error

/-- A packet is delivered in one `recv`. -/
def Event.label : Event → Label
  | .accept rxBuffer => .accept rxBuffer
  | .deliver r => .recv (.data r.packet)
  | .closed => .recv .closed
  | .error => .recv .error

def IsButton (b : UInt8) : Prop := 1 ≤ b.toNat ∧ b.toNat ≤ numButtons

instance (b : UInt8) : Decidable (IsButton b) := inferInstanceAs (Decidable (_ ∧ _))

/-- The buttons exist, and no command contains a NUL. -/
def Event.Valid : Event → Prop
  | .deliver (.press b) => IsButton b
  | .deliver (.config b command) => IsButton b ∧ (0 : UInt8) ∉ encode command
  | .accept _ | .closed | .error => True

instance : DecidablePred Event.Valid
  | .deliver (.press b) => inferInstanceAs (Decidable (IsButton b))
  | .deliver (.config _ _) => inferInstanceAs (Decidable (_ ∧ _))
  | .accept _ | .closed | .error => .isTrue trivial

/-- A command of at most 62 bytes is a write to the register of its button. -/
def Event.write? : Event → Option (UInt8 × List UInt8)
  | .deliver (.config b command) =>
      if (encode command).length ≤ 62 then some (b, encode command) else none
  | .deliver (.press _) | .accept _ | .closed | .error => none

def initialEntry (b : UInt8) : List UInt8 := (buttonCommandLut[b.toNat - 1]?).getD []

/-- Every row holds the text of its register. -/
def TableHolds (memory : Nat → UInt8) (regs : UInt8 → List UInt8) : Prop :=
  ∀ b, IsButton b → HoldsString memory (b.toNat * commandMaxLen) (regs b) ∧ (regs b).length ≤ 62

theorem tableHolds_boot (memory : Nat → UInt8) : TableHolds (boot memory).memory initialEntry := by
  intro b hb
  have hrow : ∀ i, i < numButtons → ((tableBytes.drop (i * commandMaxLen)).take
      ((buttonCommandLut[i]?).getD []).length.succ =
        (buttonCommandLut[i]?).getD [] ++ [0]) ∧ 0 ∉ (buttonCommandLut[i]?).getD [] ∧
          ((buttonCommandLut[i]?).getD []).length ≤ 62 := by
    decide
  obtain ⟨hstored, hfree, hlen⟩ := hrow (b.toNat - 1) (by have := hb.1; have := hb.2; omega)
  have hoff : b.toNat * commandMaxLen = row 0 + (b.toNat - 1) * commandMaxLen := by
    have := hb.1
    unfold row commandMaxLen
    omega
  have hfits : (b.toNat - 1) * commandMaxLen + (initialEntry b).length.succ ≤ tableBytes.length := by
    have htable : tableBytes.length = 384 := by decide +kernel
    have hentry : (initialEntry b).length ≤ 62 := hlen
    have := hb.2
    unfold numButtons at this
    unfold commandMaxLen
    omega
  refine ⟨⟨hfree, ?_⟩, hlen⟩
  rw [hoff]
  exact (readAt_writeAt_part memory (row 0) tableBytes _ _ hfits).trans hstored

/-! ### What the handler makes of a worker's packet -/

theorem effectOf_buttonPacket (rxBuffer : Nat → UInt8) (b : UInt8) :
    effectOf (writeAt rxBuffer 0 (buttonPacket b)) (buttonPacket b).length =
      some (.run (buttonIdx b)) :=
  effectOf_press rfl (by simp [buttonPacket])

theorem holdsString_config (rxBuffer : Nat → UInt8) (b : UInt8) {command : String}
    (hfree : (0 : UInt8) ∉ encode command) :
    HoldsString (writeAt rxBuffer 0 (buttonConfigPacket b command)) 3 (encode command) := by
  refine ⟨hfree, ?_⟩
  have hlen : 3 + ((encode command).length + 1) ≤ (buttonConfigPacket b command).length := by
    simp only [buttonConfigPacket, List.length_append, List.length_cons, List.length_nil]
    omega
  calc readAt (writeAt rxBuffer 0 (buttonConfigPacket b command)) 3 ((encode command).length + 1)
      = ((buttonConfigPacket b command).drop 3).take ((encode command).length + 1) :=
        readAt_writeAt_part rxBuffer 0 _ 3 _ hlen
    _ = (encode command ++ [0]).take (encode command ++ [0]).length := by
        simp [buttonConfigPacket]
    _ = encode command ++ [0] := List.take_length

theorem effectOf_buttonConfigPacket (rxBuffer : Nat → UInt8) (b : UInt8) {command : String}
    (hfree : (0 : UInt8) ∉ encode command) :
    effectOf (writeAt rxBuffer 0 (buttonConfigPacket b command))
        (buttonConfigPacket b command).length =
      if (encode command).length ≤ 62 then some (.store (buttonIdx b) (encode command ++ [0]))
      else none := by
  have hstring := holdsString_config rxBuffer b hfree
  have hlen : (buttonConfigPacket b command).length = (encode command).length + 4 := by
    simp [buttonConfigPacket]
  have hcmd : strnlen (writeAt rxBuffer 0 (buttonConfigPacket b command)) 3
      ((buttonConfigPacket b command).length - 3) = (encode command).length := by
    rw [strnlen, hstring.cString_eq (by omega)]
  have hbutton : writeAt rxBuffer 0 (buttonConfigPacket b command) 1 = b := rfl
  have hfits : (encode command).length + 1 < commandMaxLen ↔ (encode command).length ≤ 62 := by
    unfold commandMaxLen
    omega
  rw [effectOf_config rfl (by omega) rfl, hcmd, hstring.stored, hbutton]
  simp only [hfits]

theorem handled_press (memory rxBuffer : Nat → UInt8) {b : UInt8} (hb : IsButton b) :
    infoglobePacketHandler memory (writeAt rxBuffer 0 (buttonPacket b)) (buttonPacket b).length =
      (memory, some (cString memory (b.toNat * commandMaxLen)
        (tableEnd - b.toNat * commandMaxLen))) := by
  rw [infoglobePacketHandler_eq, effectOf_buttonPacket, ← row_buttonIdx hb.2]
  rfl

theorem handled_config (memory rxBuffer : Nat → UInt8) {b : UInt8} (hb : IsButton b)
    {command : String} (hfree : (0 : UInt8) ∉ encode command) :
    infoglobePacketHandler memory (writeAt rxBuffer 0 (buttonConfigPacket b command))
        (buttonConfigPacket b command).length =
      (if (encode command).length ≤ 62 then
          writeAt memory (b.toNat * commandMaxLen) (encode command ++ [0])
        else memory, none) := by
  rw [infoglobePacketHandler_eq, effectOf_buttonConfigPacket rxBuffer b hfree,
    ← row_buttonIdx hb.2]
  split <;> rfl

/-! ### The table is a register file -/

theorem tableHolds_write {memory : Nat → UInt8} {regs : UInt8 → List UInt8}
    (h : TableHolds memory regs) {b : UInt8} (hb : IsButton b) {cmd : List UInt8}
    (hfree : 0 ∉ cmd) (hlen : cmd.length ≤ 62) :
    TableHolds (writeAt memory (b.toNat * commandMaxLen) (cmd ++ [0])) (write regs (b, cmd)) := by
  intro c hc
  by_cases hcb : c = b
  · subst hcb
    rw [write_same]
    refine ⟨⟨hfree, ?_⟩, hlen⟩
    have hback := readAt_writeAt memory (c.toNat * commandMaxLen) (cmd ++ [0])
    rwa [List.length_append, List.length_singleton] at hback
  · rw [write_other regs cmd hcb]
    obtain ⟨⟨hcfree, hcstored⟩, hclen⟩ := h c hc
    have hrows : c.toNat ≠ b.toNat := fun heq => hcb (UInt8.toNat_inj.mp heq)
    refine ⟨⟨hcfree, ?_⟩, hclen⟩
    rw [readAt_writeAt_of_disjoint memory (cmd ++ [0]) ?_]
    · exact hcstored
    · -- the rows are 64 bytes apart and neither string is longer than that
      simp only [List.length_append, List.length_singleton]
      unfold commandMaxLen
      omega

theorem cString_of_tableHolds {memory : Nat → UInt8} {regs : UInt8 → List UInt8}
    (h : TableHolds memory regs) {b : UInt8} (hb : IsButton b) :
    cString memory (b.toNat * commandMaxLen) (tableEnd - b.toNat * commandMaxLen) = regs b := by
  obtain ⟨hstring, hlen⟩ := h b hb
  apply hstring.cString_eq
  have := hb.2
  unfold numButtons at this
  unfold tableEnd row commandMaxLen numButtons
  omega

theorem tableHolds_step {s t : State} {regs : UInt8 → List UInt8} {e : Event}
    (h : TableHolds s.memory regs) (he : e.Valid) (hstep : step s e.label = some t) :
    TableHolds t.memory (writeAll regs e.write?.toList) := by
  cases e with
  | accept rxBuffer =>
      simp only [Event.label, step] at hstep
      split at hstep
      · obtain rfl := Option.some.inj hstep
        exact h
      · exact absurd hstep (by simp)
  | closed | error =>
      simp only [Event.label, step] at hstep
      split at hstep
      · exact absurd hstep (by simp)
      · obtain rfl := Option.some.inj hstep
        exact h
  | deliver r =>
      cases hs : s.session with
      | none =>
          simp only [Event.label, step, hs] at hstep
          exact absurd hstep (by simp)
      | some rxBuffer =>
          have hwithin : (RecvResult.data r.packet).within rxBufferLen = true := by
            simp only [Event.label, step, hs] at hstep
            by_contra hlong
            rw [if_neg hlong] at hstep
            exact absurd hstep (by simp)
          rw [Event.label, step_recv_data hs hwithin] at hstep
          obtain rfl := Option.some.inj hstep
          cases r with
          | press b =>
              simp only [Request.packet, handled_press s.memory rxBuffer he]
              exact h
          | config b command =>
              obtain ⟨hb, hfree⟩ := he
              simp only [Request.packet, handled_config s.memory rxBuffer hb hfree, Event.write?]
              split
              · exact tableHolds_write h hb hfree ‹_›
              · exact h

theorem tableHolds_run {s t : State} {regs : UInt8 → List UInt8} {events : List Event}
    (h : TableHolds s.memory regs) (hvalid : ∀ e ∈ events, e.Valid)
    (hr : run step s (events.map Event.label) = some t) :
    TableHolds t.memory (writeAll regs (events.filterMap Event.write?)) := by
  induction events generalizing s regs with
  | nil =>
      obtain rfl : s = t := Option.some.inj hr
      exact h
  | cons e events ih =>
      obtain ⟨u, hu, hr⟩ := run_cons_eq_some.mp hr
      have hstep := tableHolds_step h (hvalid e List.mem_cons_self) hu
      have htail := ih hstep (fun f hf => hvalid f (List.mem_cons_of_mem e hf)) hr
      rw [← writeAll_append] at htail
      cases hw : e.write? <;> simpa [List.filterMap_cons, hw] using htail

/-- A press of a button runs the command that was configured for it last, among those that fit, or
the initial entry of the table. -/
theorem press_runs_latest_command (memory : Nat → UInt8) (events : List Event) (b : UInt8)
    {s : State} (hvalid : ∀ e ∈ events, e.Valid) (hb : IsButton b)
    (hr : run step (boot memory) (events.map Event.label) = some s)
    (hopen : s.session.isSome) :
    ∃ t, step s (Event.deliver (.press b)).label = some t ∧
      t.commands = s.commands ++
        [(latest b (events.filterMap Event.write?)).getD (initialEntry b)] := by
  obtain ⟨rxBuffer, hs⟩ := Option.isSome_iff_exists.mp hopen
  have htable := tableHolds_run (tableHolds_boot memory) hvalid hr
  have hwithin : (RecvResult.data (buttonPacket b)).within rxBufferLen = true :=
    RecvResult.within_data.mpr ⟨by simp [buttonPacket], by simp [buttonPacket, rxBufferLen]⟩
  refine ⟨_, step_recv_data hs hwithin, ?_⟩
  have hrun : (infoglobePacketHandler s.memory (writeAt rxBuffer 0 (buttonPacket b))
      (buttonPacket b).length).2.toList =
        [(latest b (events.filterMap Event.write?)).getD (initialEntry b)] := by
    rw [handled_press s.memory rxBuffer hb, cString_of_tableHolds htable hb, writeAll_apply]
    rfl
  exact congrArg (s.commands ++ ·) hrun

/-- Button 2 is configured twice, the second time in vain because the command is too long, and
then button 1. -/
def configured : List Event :=
  [.accept fun _ => 0xff, .deliver (.config 2 "ls"),
    .deliver (.config 2 (String.ofList (List.replicate 63 'a'))), .deliver (.config 1 "pwd")]

theorem press_runs_latest_command_session :
    ∃ s t, run step (boot fun _ => 0) (configured.map Event.label) = some s ∧
      step s (Event.deliver (.press 2)).label = some t ∧ t.commands = [asciiBytes "ls"] := by
  have hrun : ((run step (boot fun _ => 0) (configured.map Event.label)).map
      fun s => (s.session.isSome, s.commands)) = some (true, []) := by decide +kernel
  obtain ⟨s, hs, hfields⟩ := Option.map_eq_some_iff.mp hrun
  obtain ⟨hopen, hcommands⟩ := Prod.mk.inj hfields
  have hvalid : ∀ e ∈ configured, e.Valid := by decide +kernel
  obtain ⟨t, ht, hlast⟩ :=
    press_runs_latest_command (fun _ => 0) configured 2 hvalid (by decide) hs hopen
  refine ⟨s, t, hs, ht, ?_⟩
  rw [hlast, hcommands]
  decide +kernel

end InfoGlobe.ButtonLink
