import InfoGlobe.Firmware.RunSshTask
import InfoGlobe.System.ButtonLink

/-!
The button port together with the tasks that it starts. `run_ssh_task_blocked` is given the address
of a row of the command table, and the task reads the row only when it executes the command, so the
table has to stand still from the press up to that moment.
-/

namespace InfoGlobe.RemoteCommand
open StepSystem FlatMemory RegisterFile ButtonTcpTask RunSshTask

/-- Where the button task stands in its session. -/
inductive Pc
  | recv | blocked | send
  deriving DecidableEq

structure State where
  port : ButtonTcpTask.State
  pc : Pc
  presses : RunSshTask.State
  /-- The row whose address each call of `run_ssh_task_blocked` was given. -/
  pointer : Nat → Int
  /-- What `libssh2_channel_exec` has read, and for which call. -/
  executed : List (Nat × List UInt8)

def start (memory : Nat → UInt8) : State where
  port := boot memory
  pc := .recv
  presses := RunSshTask.start
  pointer := fun _ => 0
  executed := []

inductive Label
  | accept (rxBuffer : Nat → UInt8)
  | recv (r : RecvResult)
  | caller (l : CallerLabel)
  | task (k : Nat) (l : SshTask.Label)
  /-- The client is told "OK". -/
  | send

/-- The C string at the head of a row. -/
def rowText (memory : Nat → UInt8) (idx : Int) : List UInt8 :=
  cString memory (row idx) (tableEnd - row idx)

/-- The task reads its command. -/
def executes : SshTask.Label → Bool
  | .channelExec _ => true
  | _ => false

/-- The handler has run; a press is left to `run_ssh_task_blocked`. -/
def afterPacket (s : State) (port : ButtonTcpTask.State) : Option Effect → Option State
  | some (.run idx) =>
      (RunSshTask.step s.presses (.caller (.call (rowText s.port.memory idx)))).map fun presses =>
        { s with
          port := port
          pc := .blocked
          presses := presses
          pointer := Function.update s.pointer s.presses.current idx }
  | some (.store _ _) | none => some { s with port := port, pc := .send }

def afterRecv (s : State) (port : ButtonTcpTask.State) : RecvResult → Option State
  | .data bytes =>
      s.port.session.bind fun rxBuffer =>
        afterPacket s port (effectOf (writeAt rxBuffer 0 bytes) bytes.length)
  | .closed | .error => some { s with port := port }

def step (s : State) (l : Label) : Option State :=
  if s.presses.halted then none
  else
    match s.pc, l with
    | .recv, .accept rxBuffer =>
        (ButtonTcpTask.step s.port (.accept rxBuffer)).map fun port => { s with port := port }
    | .recv, .recv r =>
        (ButtonTcpTask.step s.port (.recv r)).bind fun port => afterRecv s port r
    | .blocked, .caller l =>
        (RunSshTask.step s.presses (.caller l)).map fun presses =>
          { s with presses := presses, pc := if l = .leave then .send else .blocked }
    | _, .task k l =>
        (RunSshTask.step s.presses (.task k l)).map fun presses =>
          { s with
            presses := presses
            executed := s.executed ++
              if executes l then [(k, rowText s.port.memory (s.pointer k))] else [] }
    | .send, .send => some { s with pc := .recv }
    | _, _ => none

/-- What the button port sees of a step. -/
def Label.port? : Label → Option ButtonTcpTask.Label
  | .accept rxBuffer => some (.accept rxBuffer)
  | .recv r => some (.recv r)
  | .caller _ | .task _ _ | .send => none

/-! ### What a step does -/

/-- The steps, each with what it finds and what it leaves. -/
inductive Move (s : State) : Label → State → Prop
  /-- A session begins or ends, or a packet runs no command. -/
  | handled {l : Label} {portLabel : ButtonTcpTask.Label} (port : ButtonTcpTask.State) (pc : Pc)
      (hat : s.pc = .recv) (hnext : pc ≠ .blocked) (hl : l.port? = some portLabel)
      (hstep : ButtonTcpTask.step s.port portLabel = some port)
      (hcommands : port.commands = s.port.commands) :
      Move s l { s with port := port, pc := pc }
  | pressed (bytes : List UInt8) (port : ButtonTcpTask.State) (idx : Int) (p : Press)
      (hat : s.pc = .recv) (hstep : ButtonTcpTask.step s.port (.recv (.data bytes)) = some port)
      (hmemory : port.memory = s.port.memory)
      (hcommands : port.commands = s.port.commands ++ [rowText s.port.memory idx])
      (hcall : callerStep (s.presses.press s.presses.current)
        (.call (rowText s.port.memory idx)) = some p) :
      Move s (.recv (.data bytes))
        { s with
          port := port
          pc := .blocked
          presses := ⟨s.presses.current, Function.update s.presses.press s.presses.current p, p.fatal⟩
          pointer := Function.update s.pointer s.presses.current idx }
  | caller (l : CallerLabel) (p : Press) (hat : s.pc = .blocked)
      (hstep : callerStep (s.presses.press s.presses.current) l = some p) :
      Move s (.caller l)
        { s with
          presses := ⟨s.presses.next l, Function.update s.presses.press s.presses.current p, p.fatal⟩
          pc := if l = .leave then .send else .blocked }
  | task (k : Nat) (l : SshTask.Label) (p : Press) (hstep : taskStep (s.presses.press k) l = some p) :
      Move s (.task k l)
        { s with
          presses := ⟨s.presses.current, Function.update s.presses.press k p, p.fatal⟩
          executed := s.executed ++
            if executes l then [(k, rowText s.port.memory (s.pointer k))] else [] }
  | send (hat : s.pc = .send) : Move s .send { s with pc := .recv }

theorem presses_caller {s t : RunSshTask.State} {l : CallerLabel}
    (h : RunSshTask.step s (.caller l) = some t) : ∃ p, callerStep (s.press s.current) l = some p ∧
      t = ⟨s.next l, Function.update s.press s.current p, p.fatal⟩ := by
  simp only [RunSshTask.step, Option.ite_none_left_eq_some, Option.map_eq_some_iff] at h
  obtain ⟨_, p, hp, rfl⟩ := h
  exact ⟨p, hp, rfl⟩

theorem presses_task {s t : RunSshTask.State} {k : Nat} {l : SshTask.Label}
    (h : RunSshTask.step s (.task k l) = some t) : ∃ p, taskStep (s.press k) l = some p ∧
      t = ⟨s.current, Function.update s.press k p, p.fatal⟩ := by
  simp only [RunSshTask.step, Option.ite_none_left_eq_some, Option.map_eq_some_iff] at h
  obtain ⟨_, p, hp, rfl⟩ := h
  exact ⟨p, hp, rfl⟩

/-- A packet changes the table or runs a command, and never both. -/
theorem port_packet {s t : ButtonTcpTask.State} {rxBuffer : Nat → UInt8} {bytes : List UInt8}
    (hopen : s.session = some rxBuffer) (h : ButtonTcpTask.step s (.recv (.data bytes)) = some t) :
    match effectOf (writeAt rxBuffer 0 bytes) bytes.length with
    | some (.run idx) => t.memory = s.memory ∧ t.commands = s.commands ++ [rowText s.memory idx]
    | some (.store _ _) | none => t.commands = s.commands := by
  have hwithin : (RecvResult.data bytes).within rxBufferLen = true := by
    by_contra hlong
    simp [ButtonTcpTask.step, hopen, hlong] at h
  rw [step_recv_data hopen hwithin] at h
  obtain rfl := Option.some.inj h
  rw [infoglobePacketHandler_eq]
  cases effectOf (writeAt rxBuffer 0 bytes) bytes.length with
  | none => exact List.append_nil s.commands
  | some e =>
      cases e with
      | store idx stored => exact List.append_nil s.commands
      | run idx => exact ⟨rfl, rfl⟩

theorem port_silent {s t : ButtonTcpTask.State} {l : ButtonTcpTask.Label}
    (hl : ∀ bytes, l ≠ .recv (.data bytes)) (h : ButtonTcpTask.step s l = some t) :
    t.commands = s.commands := by
  cases l with
  | accept rxBuffer =>
      simp only [ButtonTcpTask.step, Option.ite_none_right_eq_some, Option.some.injEq] at h
      exact h.2 ▸ rfl
  | recv r =>
      cases hsession : s.session with
      | none => simp [ButtonTcpTask.step, hsession] at h
      | some rxBuffer =>
          simp only [ButtonTcpTask.step, hsession, Option.ite_none_right_eq_some] at h
          cases r with
          | data bytes => exact absurd rfl (hl bytes)
          | closed | error => exact Option.some.inj h.2 ▸ rfl

theorem move_of_afterRecv {s t : State} {r : RecvResult} {port : ButtonTcpTask.State}
    (hat : s.pc = .recv) (hport : ButtonTcpTask.step s.port (.recv r) = some port)
    (h : afterRecv s port r = some t) : Move s (.recv r) t := by
  cases r with
  | closed | error =>
      obtain rfl := Option.some.inj h
      exact .handled port s.pc hat (by simp [hat]) rfl hport (port_silent (by simp) hport)
  | data bytes =>
      simp only [afterRecv, Option.bind_eq_some_iff] at h
      obtain ⟨rxBuffer, hopen, h⟩ := h
      have hpacket := port_packet hopen hport
      cases heffect : effectOf (writeAt rxBuffer 0 bytes) bytes.length with
      | none =>
          rw [heffect] at h hpacket
          obtain rfl := Option.some.inj h
          exact .handled port .send hat (by simp) rfl hport hpacket
      | some e =>
          rw [heffect] at h hpacket
          cases e with
          | store idx stored =>
              obtain rfl := Option.some.inj h
              exact .handled port .send hat (by simp) rfl hport hpacket
          | run idx =>
              simp only [afterPacket, Option.map_eq_some_iff] at h
              obtain ⟨presses, hpresses, rfl⟩ := h
              obtain ⟨p, hcall, rfl⟩ := presses_caller hpresses
              exact .pressed bytes port idx p hat hport hpacket.1 hpacket.2 hcall

theorem move_of_step {s t : State} {l : Label} (h : step s l = some t) : Move s l t := by
  unfold step at h
  split at h
  · exact absurd h (by simp)
  split at h
  case h_1 rxBuffer hat =>
    obtain ⟨port, hport, rfl⟩ := Option.map_eq_some_iff.mp h
    exact .handled port s.pc hat (by simp [hat]) rfl hport (port_silent (by simp) hport)
  case h_2 r hat =>
    obtain ⟨port, hport, h⟩ := Option.bind_eq_some_iff.mp h
    exact move_of_afterRecv hat hport h
  case h_3 l hat =>
    obtain ⟨presses, hpresses, rfl⟩ := Option.map_eq_some_iff.mp h
    obtain ⟨p, hp, rfl⟩ := presses_caller hpresses
    exact .caller l p hat hp
  case h_4 k l =>
    obtain ⟨presses, hpresses, rfl⟩ := Option.map_eq_some_iff.mp h
    obtain ⟨p, hp, rfl⟩ := presses_task hpresses
    exact .task k l p hp
  case h_5 hat =>
    obtain rfl := Option.some.inj h
    exact .send hat
  case h_6 => exact absurd h (by simp)

/-! ### The table stands still -/

/-- The task of a call is there, and has not set its last bit. -/
def Working (p : Press) : Prop := ∃ t ∈ p.task, ¬Finished t

structure Faithful (s : State) : Prop where
  /-- What a task executes is the text of the row when its button was pressed. -/
  executed : ∀ e ∈ s.executed, s.port.commands[e.1]? = some e.2
  ordered : (s.executed.map Prod.fst).Pairwise (· ≤ ·)
  /-- At most one task works at a time, for the press the button task waits for. -/
  alone : ∀ k, Working (s.presses.press k) → s.pc = .blocked ∧ k = s.presses.current
  /-- Outside of a press every press so far has come back. -/
  settled : s.pc ≠ .blocked → ∀ k, k < s.port.commands.length →
    ∃ ret, (s.presses.press k).caller = .returned ret

structure Inv (s : State) : Prop where
  sound : ∀ k, (s.presses.press k).Sound
  behind : ∀ k, k < s.presses.current → ∃ ret, (s.presses.press k).caller = .returned ret
  ahead : ∀ k, s.presses.current < k → (s.presses.press k).caller = .idle
  idle : s.pc ≠ .blocked ↔ (s.presses.press s.presses.current).caller = .idle
  here : ∀ ret, (s.presses.press s.presses.current).caller ≠ .returned ret
  count : s.port.commands.length = s.presses.current + if s.pc = .blocked then 1 else 0
  /-- The pressed row still has the text of the press. -/
  still : s.pc = .blocked → s.port.commands[s.presses.current]? =
    some (rowText s.port.memory (s.pointer s.presses.current))
  executed : ∀ e ∈ s.executed, s.port.commands[e.1]? = some e.2
  bounded : ∀ e ∈ s.executed, e.1 ≤ s.presses.current
  ordered : (s.executed.map Prod.fst).Pairwise (· ≤ ·)

/-- A task that has not set its last bit belongs to the call in progress. -/
theorem Inv.alone {s : State} (h : Inv s) {k : Nat} (hworking : Working (s.presses.press k)) :
    s.pc = .blocked ∧ k = s.presses.current := by
  obtain ⟨t, ht, hunfinished⟩ := hworking
  have hidle : (s.presses.press k).caller ≠ .idle := by
    intro hcaller
    have hsound := h.sound k
    simp only [Press.Sound, hcaller] at hsound
    rw [hsound.1] at ht
    exact absurd ht (by simp)
  have hreturned : ∀ ret, (s.presses.press k).caller ≠ .returned ret := by
    intro ret hcaller
    have hsound := h.sound k
    simp only [Press.Sound, hcaller] at hsound
    obtain ⟨u, hu, hfinished, _⟩ := hsound
    obtain rfl := Option.some.inj (hu.symm.trans ht)
    exact hunfinished hfinished
  rcases Nat.lt_trichotomy k s.presses.current with hlt | rfl | hgt
  · obtain ⟨ret, hret⟩ := h.behind k hlt
    exact absurd hret (hreturned ret)
  · exact ⟨by_contra fun hpc => hidle (h.idle.mp hpc), rfl⟩
  · exact absurd (h.ahead k hgt) hidle

theorem Inv.faithful {s : State} (h : Inv s) : Faithful s := by
  refine ⟨h.executed, h.ordered, fun k hworking => h.alone hworking, ?_⟩
  intro hpc k hk
  rw [h.count, if_neg hpc] at hk
  exact h.behind k hk

theorem inv_start (memory : Nat → UInt8) : Inv (start memory) := by
  refine ⟨fun _ => sound_idle, fun k hk => absurd hk (Nat.not_lt_zero k), fun _ _ => rfl, ?_, ?_, rfl,
    ?_, by simp [start], by simp [start], List.Pairwise.nil⟩
  · exact iff_of_true (by simp [start]) rfl
  · simp [start, RunSshTask.start, Press.idle]
  · simp [start]

section Steps
variable {s : State}

theorem inv_handled (h : Inv s) {port : ButtonTcpTask.State} {pc : Pc} (hat : s.pc = .recv)
    (hnext : pc ≠ .blocked) (hcommands : port.commands = s.port.commands) :
    Inv { s with port := port, pc := pc } := by
  have hidle := h.idle.mp (by simp [hat])
  have hcount := h.count
  rw [if_neg (by simp [hat])] at hcount
  refine ⟨h.sound, h.behind, h.ahead, iff_of_true hnext hidle, h.here, ?_,
    fun hblocked => absurd hblocked hnext, ?_, h.bounded, h.ordered⟩
  · simp only [hcommands, if_neg hnext, hcount]
  · intro e he
    exact hcommands ▸ h.executed e he

theorem getElem?_snoc {α : Type} {xs : List α} {a b : α} {i : Nat} (h : xs[i]? = some a) :
    (xs ++ [b])[i]? = some a := by
  rw [List.getElem?_append_left (List.getElem?_eq_some_iff.mp h).1]
  exact h

/-- The press is the next one, and the row is as the handler has found it. -/
theorem inv_pressed (h : Inv s) {port : ButtonTcpTask.State} {idx : Int} {p : Press}
    (hat : s.pc = .recv) (hmemory : port.memory = s.port.memory)
    (hcommands : port.commands = s.port.commands ++ [rowText s.port.memory idx])
    (hcall : callerStep (s.presses.press s.presses.current)
      (.call (rowText s.port.memory idx)) = some p) :
    Inv { s with
      port := port
      pc := .blocked
      presses := ⟨s.presses.current, Function.update s.presses.press s.presses.current p, p.fatal⟩
      pointer := Function.update s.pointer s.presses.current idx } := by
  have hcount := h.count
  rw [if_neg (by simp [hat]), Nat.add_zero] at hcount
  have hsound := sound_callerStep _ _ p (h.sound s.presses.current) hcall
  have hcaller : p.caller = .createGroup := by
    cases callerMove_of_step hcall with
    | call command hidle => rfl
  refine ⟨?_, ?_, ?_, ?_, ?_, ?_, ?_, ?_, h.bounded, h.ordered⟩
  · intro k
    simp only [Function.update_apply]
    split
    · exact hsound
    · exact h.sound k
  · intro k hk
    simp only [Function.update_of_ne (Nat.ne_of_lt hk)]
    exact h.behind k hk
  · intro k hk
    simp only [Function.update_of_ne (Nat.ne_of_gt hk)]
    exact h.ahead k hk
  · simp [Function.update_self, hcaller]
  · simp [Function.update_self, hcaller]
  · simp [hcommands, hcount]
  · intro _
    simp only [hcommands, ← hcount, hmemory]
    simp
  · intro e he
    rw [hcommands]
    exact getElem?_snoc (h.executed e he)

theorem caller_left {p q : Press} (h : callerStep p .leave = some q) :
    ∃ ret, q.caller = .returned ret := by
  cases callerMove_of_step h with
  | left ret hat => exact ⟨ret, rfl⟩

/-- Between the call and its return the caller is at neither end. -/
theorem caller_kept {p q : Press} {l : CallerLabel} (h : callerStep p l = some q)
    (hl : l ≠ .leave) : q.caller ≠ .idle ∧ ∀ ret, q.caller ≠ .returned ret := by
  cases callerMove_of_step h with
  | left ret hat => exact absurd rfl hl
  | _ => simp

theorem inv_leave (h : Inv s) {p : Press} (hat : s.pc = .blocked)
    (hstep : callerStep (s.presses.press s.presses.current) .leave = some p) :
    Inv { s with
      presses := ⟨s.presses.current + 1, Function.update s.presses.press s.presses.current p, p.fatal⟩
      pc := .send } := by
  have hcount := h.count
  rw [if_pos hat] at hcount
  have hnext : (Function.update s.presses.press s.presses.current p (s.presses.current + 1)).caller =
      .idle := by
    rw [Function.update_of_ne (by omega)]
    exact h.ahead _ (Nat.lt_succ_self _)
  refine ⟨?_, ?_, ?_, iff_of_true (by simp) hnext, ?_, by simpa using hcount, by simp, h.executed,
    fun e he => Nat.le_succ_of_le (h.bounded e he), h.ordered⟩
  · intro k
    simp only [Function.update_apply]
    split
    · exact sound_callerStep _ _ p (h.sound s.presses.current) hstep
    · exact h.sound k
  · intro k hk
    by_cases heq : k = s.presses.current
    · subst heq
      simp only [Function.update_self]
      exact caller_left hstep
    · simp only [Function.update_of_ne heq]
      exact h.behind k (by simp only at hk; omega)
  · intro k hk
    simp only at hk
    simp only [Function.update_of_ne (show k ≠ s.presses.current by omega)]
    exact h.ahead k (by omega)
  · intro ret hret
    exact absurd (hnext.symm.trans hret) (by simp)

theorem inv_caller (h : Inv s) {l : CallerLabel} {p : Press} (hat : s.pc = .blocked)
    (hl : l ≠ .leave) (hstep : callerStep (s.presses.press s.presses.current) l = some p) :
    Inv { s with
      presses := ⟨s.presses.current, Function.update s.presses.press s.presses.current p, p.fatal⟩
      pc := .blocked } := by
  have hcount := h.count
  rw [if_pos hat] at hcount
  obtain ⟨hidle, hreturned⟩ := caller_kept hstep hl
  refine ⟨?_, ?_, ?_, ?_, ?_, by simpa using hcount, fun _ => h.still hat, h.executed, h.bounded,
    h.ordered⟩
  · intro k
    simp only [Function.update_apply]
    split
    · exact sound_callerStep _ _ p (h.sound s.presses.current) hstep
    · exact h.sound k
  · intro k hk
    simp only [Function.update_of_ne (Nat.ne_of_lt hk)]
    exact h.behind k hk
  · intro k hk
    simp only [Function.update_of_ne (Nat.ne_of_gt hk)]
    exact h.ahead k hk
  · simp only [Function.update_self]
    exact iff_of_false (by simp) hidle
  · intro ret
    simp only [Function.update_self]
    exact hreturned ret

/-- A task that reads its command has its last bit still to set. -/
theorem working_of_executes {p q : Press} {l : SshTask.Label} (hl : executes l = true)
    (hstep : taskStep p l = some q) : Working p := by
  obtain ⟨t, u, ht, hu, _⟩ := taskStep_eq_some.mp hstep
  refine ⟨t, ht, fun hfinished => ?_⟩
  have hplace := (SshTask.finish_mem_iff hfinished.1).mp hfinished.2
  obtain ⟨⟨hpc, _⟩, _⟩ := SshTask.step_eq_some.mp hu
  rw [hpc] at hplace
  cases l with
  | channelExec rc => simp [SshTask.Label.pc] at hplace
  | _ => exact Bool.noConfusion hl

theorem inv_task (h : Inv s) {k : Nat} {l : SshTask.Label} {p : Press}
    (hstep : taskStep (s.presses.press k) l = some p) :
    Inv { s with
      presses := ⟨s.presses.current, Function.update s.presses.press k p, p.fatal⟩
      executed := s.executed ++
        if executes l then [(k, rowText s.port.memory (s.pointer k))] else [] } := by
  have hcaller : ∀ j,
      (Function.update s.presses.press k p j).caller = (s.presses.press j).caller := by
    intro j
    rw [Function.update_apply]
    by_cases heq : j = k
    · obtain ⟨t, u, _, _, rfl⟩ := taskStep_eq_some.mp hstep
      rw [if_pos heq, heq]
    · rw [if_neg heq]
  have hlast : ∀ e ∈ (if executes l then [(k, rowText s.port.memory (s.pointer k))] else []),
      e = (s.presses.current, rowText s.port.memory (s.pointer s.presses.current)) ∧
        s.pc = .blocked := by
    intro e he
    cases hexec : executes l with
    | false => simp [hexec] at he
    | true =>
        obtain ⟨hblocked, rfl⟩ := h.alone (working_of_executes hexec hstep)
        simp only [hexec, if_true, List.mem_singleton] at he
        exact ⟨he, hblocked⟩
  refine ⟨?_, ?_, ?_, ?_, ?_, h.count, h.still, ?_, ?_, ?_⟩
  · intro j
    simp only [Function.update_apply]
    split
    · exact sound_taskStep _ l p (h.sound k) hstep
    · exact h.sound j
  · intro j hj
    simp only [hcaller]
    exact h.behind j hj
  · intro j hj
    simp only [hcaller]
    exact h.ahead j hj
  · simp only [hcaller]
    exact h.idle
  · simp only [hcaller]
    exact h.here
  · intro e he
    rcases List.mem_append.mp he with he | he
    · exact h.executed e he
    · obtain ⟨rfl, hblocked⟩ := hlast e he
      exact h.still hblocked
  · intro e he
    rcases List.mem_append.mp he with he | he
    · exact h.bounded e he
    · obtain ⟨rfl, _⟩ := hlast e he
      exact Nat.le_refl _
  · rw [List.map_append, List.pairwise_append]
    refine ⟨h.ordered, ?_, ?_⟩
    · cases executes l <;> simp
    · intro i hi j hj
      obtain ⟨e, he, rfl⟩ := List.mem_map.mp hi
      obtain ⟨d, hd, rfl⟩ := List.mem_map.mp hj
      obtain ⟨rfl, _⟩ := hlast d hd
      exact h.bounded e he

theorem inv_send (h : Inv s) (hat : s.pc = .send) : Inv { s with pc := .recv } := by
  have hidle := h.idle.mp (by simp [hat])
  have hcount := h.count
  rw [if_neg (by simp [hat])] at hcount
  exact ⟨h.sound, h.behind, h.ahead, iff_of_true (by simp) hidle, h.here, by simpa using hcount,
    by simp, h.executed, h.bounded, h.ordered⟩

theorem inv_step {t : State} {l : Label} (h : Inv s) (hstep : step s l = some t) : Inv t := by
  cases move_of_step hstep with
  | handled port pc hat hnext hl hport hcommands => exact inv_handled h hat hnext hcommands
  | pressed bytes port idx p hat hport hmemory hcommands hcall =>
      exact inv_pressed h hat hmemory hcommands hcall
  | caller l p hat hcaller =>
      by_cases hl : l = .leave
      · subst hl
        exact inv_leave h hat hcaller
      · have hnext : s.presses.next l = s.presses.current := by
          cases l <;> first | rfl | exact absurd rfl hl
        rw [if_neg hl, hnext]
        exact inv_caller h hat hl hcaller
  | task k l p htask => exact inv_task h htask
  | send hat => exact inv_send h hat

end Steps

theorem port_of_step (s : State) (l : Label) (t : State) (h : step s l = some t) :
    l.port?.elim (t.port = s.port) fun k => ButtonTcpTask.step s.port k = some t.port := by
  cases move_of_step h with
  | handled port pc hat hnext hl hstep hcommands =>
      rw [hl]
      exact hstep
  | pressed bytes port idx p hat hstep hmemory hcommands hcall => exact hstep
  | caller l p hat hstep => rfl
  | task k l p hstep => rfl
  | send hat => rfl

/-- For every interleaving of the button task with the tasks it starts, and whatever they meet: a
task executes the row as it was when its button was pressed, though it reads the table much later.
The port does what it does when a press is one step. -/
theorem commands_faithful (memory : Nat → UInt8) (ls : List Label) :
    Always step Faithful (start memory) ls ∧
      ∀ t, run step (start memory) ls = some t →
        run ButtonTcpTask.step (boot memory) (ls.filterMap Label.port?) = some t.port :=
  ⟨always_of_invariant (fun _ h => h.faithful) (fun _ _ _ h hstep => inv_step h hstep)
    (inv_start memory) ls, fun _ hr => run_filterMap port_of_step hr⟩

/-! ### From the client to the remote host -/

section Client
open ButtonLink

def isPress : Event → Bool
  | .deliver (.press _) => true
  | _ => false

/-- What an event makes the port run. -/
def ran (regs : UInt8 → List UInt8) : Event → List (List UInt8)
  | .deliver (.press b) => [regs b]
  | _ => []

theorem length_ran (regs : UInt8 → List UInt8) (e : Event) :
    (ran regs e).length = ([e].filter isPress).length := by
  cases e with
  | deliver r => cases r <;> rfl
  | _ => rfl

theorem commands_of_event {s t : ButtonTcpTask.State} {regs : UInt8 → List UInt8} {e : Event}
    (h : TableHolds s.memory regs) (he : e.Valid) (hstep : ButtonTcpTask.step s e.label = some t) :
    t.commands = s.commands ++ ran regs e := by
  cases e with
  | accept rxBuffer | closed | error =>
      exact (port_silent (by simp [Event.label]) hstep).trans (List.append_nil _).symm
  | deliver r =>
      cases hopen : s.session with
      | none => simp [Event.label, ButtonTcpTask.step, hopen] at hstep
      | some rxBuffer =>
          have hpacket := port_packet hopen hstep
          cases r with
          | press b =>
              simp only [Request.packet, effectOf_buttonPacket] at hpacket
              rw [hpacket.2, rowText, row_buttonIdx he.2, cString_of_tableHolds h he]
              rfl
          | config b command =>
              simp only [Request.packet, effectOf_buttonConfigPacket rxBuffer b he.2] at hpacket
              refine Eq.trans ?_ (List.append_nil _).symm
              by_cases hfits : (TcpWorker.encode command).length ≤ 62
              · simpa [hfits] using hpacket
              · simpa [hfits] using hpacket

theorem length_commands {memory : Nat → UInt8} {events : List Event} {t : ButtonTcpTask.State}
    (hvalid : ∀ e ∈ events, e.Valid)
    (hr : run ButtonTcpTask.step (boot memory) (events.map Event.label) = some t) :
    t.commands.length = (events.filter isPress).length := by
  induction events using List.reverseRecOn generalizing t with
  | nil =>
      obtain rfl := Option.some.inj hr
      rfl
  | append_singleton events e ih =>
      rw [List.map_append, List.map_singleton, run_append_singleton_eq_some] at hr
      obtain ⟨u, hu, hstep⟩ := hr
      have hearlier : ∀ f ∈ events, f.Valid := fun f hf => hvalid f (by simp [hf])
      have htable := tableHolds_run (tableHolds_boot memory) hearlier hu
      rw [commands_of_event htable (hvalid e (by simp)) hstep, List.length_append, ih hearlier hu,
        length_ran, List.filter_append, List.length_append]

/-- The `k`-th command of the port is the content of the register that the `k`-th press names. -/
theorem command_of_press {memory : Nat → UInt8} {events : List Event} {t : ButtonTcpTask.State}
    (hvalid : ∀ e ∈ events, e.Valid)
    (hr : run ButtonTcpTask.step (boot memory) (events.map Event.label) = some t) {k : Nat}
    {command : List UInt8} (hk : t.commands[k]? = some command) :
    ∃ before b after, events = before ++ .deliver (.press b) :: after ∧
      (before.filter isPress).length = k ∧
        command = (latest b (before.filterMap Event.write?)).getD (initialEntry b) := by
  induction events using List.reverseRecOn generalizing t with
  | nil =>
      obtain rfl := Option.some.inj hr
      exact absurd hk (by simp [boot])
  | append_singleton events e ih =>
      rw [List.map_append, List.map_singleton, run_append_singleton_eq_some] at hr
      obtain ⟨u, hu, hstep⟩ := hr
      have hearlier : ∀ f ∈ events, f.Valid := fun f hf => hvalid f (by simp [hf])
      have htable := tableHolds_run (tableHolds_boot memory) hearlier hu
      rw [commands_of_event htable (hvalid e (by simp)) hstep] at hk
      by_cases hold : k < u.commands.length
      · rw [List.getElem?_append_left hold] at hk
        obtain ⟨before, b, after, rfl, hcount, hcommand⟩ := ih hearlier hu hk
        exact ⟨before, b, after ++ [e], by simp, hcount, hcommand⟩
      · -- the press is the event itself
        rw [List.getElem?_append_right (Nat.le_of_not_lt hold)] at hk
        have hlen := (List.getElem?_eq_some_iff.mp hk).1
        cases e with
        | deliver r =>
            cases r with
            | press b =>
                have hlast : k = u.commands.length := by
                  simp only [ran, List.length_singleton] at hlen
                  omega
                subst hlast
                refine ⟨events, b, [], rfl, (length_commands hearlier hu).symm, ?_⟩
                rw [Nat.sub_self] at hk
                rw [← Option.some.inj hk, writeAll_apply]
            | config b command => simp [ran] at hlen
        | _ => simp [ran] at hlen

/-- The clients send workers' packets, each delivered whole. -/
def FromWorkers (ls : List Label) (events : List Event) : Prop :=
  (∀ e ∈ events, e.Valid) ∧ ls.filterMap Label.port? = events.map Event.label

/-- A remote host is asked to run what was configured last for the button when it was pressed, or
the initial entry, however late the task gets there. -/
theorem remote_runs_latest_command (memory : Nat → UInt8) {ls : List Label} {events : List Event}
    {t : State} (hworkers : FromWorkers ls events) (hr : run step (start memory) ls = some t) :
    ∀ e ∈ t.executed, ∃ before b after, events = before ++ .deliver (.press b) :: after ∧
      (before.filter isPress).length = e.1 ∧
        e.2 = (latest b (before.filterMap Event.write?)).getD (initialEntry b) := by
  intro e he
  have hport := run_filterMap port_of_step hr
  have hfaithful := (always_of_invariant (fun _ h => h.faithful)
    (fun _ _ _ h hstep => inv_step h hstep) (inv_start memory) ls).last hr
  have hcommands : run ButtonTcpTask.step (boot memory) (events.map Event.label) = some t.port := by
    rw [← hworkers.2]
    exact hport
  exact command_of_press hworkers.1 hcommands (hfaithful.executed e he)

/-- Button 2 is configured and pressed. -/
def pressedEvents : List Event :=
  [.accept fun _ => 0xff, .deliver (.config 2 "ls"), .deliver (.press 2)]

def pressedRun : List Label :=
  [.accept fun _ => 0xff, .recv (.data (Request.config 2 "ls").packet), .send,
    .recv (.data (Request.press 2).packet), .caller (.xEventGroupCreate true),
    .caller (.xTaskCreate true)] ++
  ([.start, .libssh2Init 0, .inetAddr true, .socket 54, .connect 0, .sessionInit true, .handshake 0,
    .userauthPassword 0, .printCommand, .execSshCommand, .openSession .channel,
    .channelExec 0] : List SshTask.Label).map (.task 0)

theorem remote_runs_latest_command_pressed :
    ∃ t, run step (start fun _ => 0) pressedRun = some t ∧ t.executed = [(0, asciiBytes "ls")] ∧
      ∃ before b after, pressedEvents = before ++ .deliver (.press b) :: after ∧
        (before.filter isPress).length = 0 ∧
          asciiBytes "ls" = (latest b (before.filterMap Event.write?)).getD (initialEntry b) := by
  have hrun : (run step (start fun _ => 0) pressedRun).map State.executed =
      some [(0, asciiBytes "ls")] := by
    decide +kernel
  obtain ⟨t, ht, hexecuted⟩ := Option.map_eq_some_iff.mp hrun
  have hworkers : FromWorkers pressedRun pressedEvents := ⟨by decide +kernel, rfl⟩
  exact ⟨t, ht, hexecuted, remote_runs_latest_command (fun _ => 0) hworkers ht (0, asciiBytes "ls")
    (by rw [hexecuted]; exact List.mem_singleton_self _)⟩

end Client

end InfoGlobe.RemoteCommand
