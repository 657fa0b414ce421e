import InfoGlobe.Library.ListParts
import InfoGlobe.Firmware.ReadChannel
import InfoGlobe.Firmware.SshTask

/-!
`ssh_shell_session`: one buffer in which a line is gathered byte by byte, from which it is passed on
as a command, and into which the answer is read. A line that fills the buffer starts again at the
front, so only what lies behind the last full buffer is left of it.
-/

namespace InfoGlobe.ShellSession
open FlatMemory StepSystem ListParts SshDriver
open SshTask (TaskBit)

def bufferSize : Nat := 4096

/-- Where the task is. What stands behind the loop is never reached. -/
inductive Pc
  | initializeLibssh | createSocket | connect | createSshSession | malloc
  | uartReadBytes | execSshCommand | readChannel
  | setFail | setFinish | deleteTask | deleted | panicked
  deriving DecidableEq

def Pc.settingUp : Pc → Bool
  | .initializeLibssh | .createSocket | .connect | .createSshSession | .malloc => true
  | _ => false

/-- A line has ended and its command is not over. -/
def Pc.inCommand : Pc → Bool
  | .execSshCommand | .readChannel => true
  | _ => false

/-- What the task does outside of itself. -/
inductive Call
  /-- A byte has come in and been stored at an index of `rx_buff`. -/
  | uartReadBytes (index : Nat) (byte : UInt8)
  | uartWriteBytes (bytes : List UInt8)
  | execSshCommand (command : List UInt8)
  | setBits (bit : TaskBit)
  deriving DecidableEq

structure State where
  pc : Pc
  /-- `none` is the null pointer. -/
  txBuff : Option (Nat → UInt8)
  rxBuff : Option (Nat → UInt8)
  index : Nat
  byteCount : Nat
  calls : List Call

inductive Label
  | initializeLibssh (ret : Int)
  | createSocket (sock : Int)
  | connect (rc : Int)
  | createSshSession (created : Bool)
  | malloc (txBuff rxBuff : Option (Nat → UInt8))
  /-- `none` is a read that times out. -/
  | uartReadBytes (byte : Option UInt8)
  | execSshCommand (opened : Bool)
  /-- The results of the reads of `read_channel`. -/
  | readChannel (rs : List ReadResult)
  | setFail
  | setFinish
  | vTaskDelete

/-- The caller passes the address of its local record, so the null check at the top is passed. -/
def start : State where
  pc := .initializeLibssh
  txBuff := none
  rxBuff := none
  index := 0
  byteCount := 0
  calls := []

def isLineEnd (b : UInt8) : Bool := b == 10 || b == 13

def State.goto (s : State) (pc : Pc) : State := { s with pc := pc }

/-- What the loop does with a byte that it has read. -/
def store (s : State) (rxBuff : Nat → UInt8) (b : UInt8) : State :=
  let read := writeAt rxBuff s.index [b]
  let calls := s.calls ++ [.uartReadBytes s.index b, .uartWriteBytes [b]]
  if isLineEnd b then
    { s with
      rxBuff := some (writeAt read s.index [0])
      index := 0
      byteCount := s.index
      calls := calls ++ [.uartWriteBytes [13, 10]] }
  else
    { s with
      rxBuff := some read
      index := if bufferSize ≤ s.index + 1 then 0 else s.index + 1
      calls := calls }

/-- The test behind the read. -/
def testByteCount (s : State) : State :=
  s.goto (if 0 < s.byteCount then .execSshCommand else .uartReadBytes)

def clear (m : Nat → UInt8) : Nat → UInt8 := writeAt m 0 (List.replicate bufferSize 0)

/-- The end of a turn that has passed on a command. -/
def afterRead (s : State) (c : Channel) : Option State :=
  c.returned.map fun bytecount : Int =>
    if bytecount < 0 then { s with pc := .setFail, rxBuff := some c.reading.inputBuffer }
    else
      match s.txBuff with
      | none => s.goto .panicked
      | some txBuff =>
          { s with
            pc := .uartReadBytes
            txBuff := some (clear txBuff)
            rxBuff := some (clear c.reading.inputBuffer)
            byteCount := 0 }

/-- A null pointer is noticed where it is used first. -/
def effect (s : State) : Label → Option State
  | .initializeLibssh ret => some (s.goto (if ret ≠ 0 then .setFail else .createSocket))
  | .createSocket sock => some (s.goto (if sock < 0 then .setFail else .connect))
  | .connect rc => some (s.goto (if rc ≠ 0 then .setFail else .createSshSession))
  | .createSshSession created => some (s.goto (if created then .malloc else .setFail))
  | .malloc txBuff rxBuff =>
      some
        { s with
          pc := .uartReadBytes, txBuff := txBuff, rxBuff := rxBuff, index := 0, byteCount := 0 }
  | .uartReadBytes none => some (testByteCount s)
  | .uartReadBytes (some b) =>
      match s.rxBuff with
      | none => some (s.goto .panicked)
      | some m => some (testByteCount (store s m b))
  | .execSshCommand opened =>
      match s.rxBuff with
      | none => some (s.goto .panicked)
      | some m =>
          some
            { s with
              pc := if opened then .readChannel else .setFail
              calls := s.calls ++ [.execSshCommand (cString m 0 bufferSize)] }
  | .readChannel rs =>
      s.rxBuff.bind fun m => afterRead s (SshDriver.readChannel bufferSize m rs)
  | .setFail => some { s with pc := .setFinish, calls := s.calls ++ [.setBits .fail] }
  | .setFinish => some { s with pc := .deleteTask, calls := s.calls ++ [.setBits .finish] }
  | .vTaskDelete => some (s.goto .deleted)

def Label.pc : Label → Pc
  | .initializeLibssh _ => .initializeLibssh
  | .createSocket _ => .createSocket
  | .connect _ => .connect
  | .createSshSession _ => .createSshSession
  | .malloc _ _ => .malloc
  | .uartReadBytes _ => .uartReadBytes
  | .execSshCommand _ => .execSshCommand
  | .readChannel _ => .readChannel
  | .setFail => .setFail
  | .setFinish => .setFinish
  | .vTaskDelete => .deleteTask

def step (s : State) (l : Label) : Option State := if s.pc = l.pc then effect s l else none

/-! ### What has come in and what has been passed on -/

def Call.byte : Call → Option UInt8
  | .uartReadBytes _ byte => some byte
  | _ => none

def Call.index : Call → Option Nat
  | .uartReadBytes index _ => some index
  | _ => none

def Call.command : Call → Option (List UInt8)
  | .execSshCommand command => some command
  | _ => none

/-- The bytes that have come in. -/
def State.stream (s : State) : List UInt8 := s.calls.filterMap Call.byte

/-- The indexes at which they were stored. -/
def State.stored (s : State) : List Nat := s.calls.filterMap Call.index

def State.commands (s : State) : List (List UInt8) := s.calls.filterMap Call.command

/-- The commands are the lines that fit into the buffer, and no part of another line is one. -/
structure LinesAssembled (s : State) : Prop where
  stored : ∀ index ∈ s.stored, index < bufferSize
  passed : s.commands =
    (completed isLineEnd s.stream).filter fun line => line ≠ [] ∧ line.length < bufferSize

/-- What is left of a line in the buffer. -/
def remainder (line : List UInt8) : List UInt8 :=
  line.drop (line.length - line.length % bufferSize)

/-- The commands that the loop makes of a stream. -/
def issued (stream : List UInt8) : List (List UInt8) :=
  ((completed isLineEnd stream).map remainder).filter (· ≠ [])

/-! ### Lines and their remainders -/

theorem length_remainder (line : List UInt8) :
    (remainder line).length = line.length % bufferSize := by
  have hle := Nat.mod_le line.length bufferSize
  rw [remainder, List.length_drop]
  omega

theorem remainder_eq_nil_iff {line : List UInt8} :
    remainder line = [] ↔ bufferSize ∣ line.length := by
  rw [← List.length_eq_zero_iff, length_remainder, Nat.dvd_iff_mod_eq_zero]

theorem remainder_of_lt {line : List UInt8} (h : line.length < bufferSize) :
    remainder line = line := by
  rw [remainder, Nat.mod_eq_of_lt h, Nat.sub_self, List.drop_zero]

/-- A byte that does not fill the buffer is added to what is left. -/
theorem remainder_snoc {line : List UInt8} {b : UInt8}
    (h : line.length % bufferSize + 1 < bufferSize) :
    (line ++ [b]).length % bufferSize = line.length % bufferSize + 1 ∧
      remainder (line ++ [b]) = remainder line ++ [b] := by
  have hmod : (line ++ [b]).length % bufferSize = line.length % bufferSize + 1 := by
    rw [List.length_append, List.length_singleton, Nat.add_mod, Nat.mod_eq_of_lt]
    · rfl
    · exact h
  have hle := Nat.mod_le line.length bufferSize
  refine ⟨hmod, ?_⟩
  rw [remainder, hmod, List.length_append, List.length_singleton, Nat.add_sub_add_right,
    List.drop_append_of_le_length (Nat.sub_le _ _)]
  rfl

/-- A byte that fills the buffer leaves nothing. -/
theorem remainder_snoc_full {line : List UInt8} {b : UInt8}
    (h : bufferSize ≤ line.length % bufferSize + 1) :
    (line ++ [b]).length % bufferSize = 0 ∧ remainder (line ++ [b]) = [] := by
  have hmod : (line ++ [b]).length % bufferSize = 0 := by
    rw [List.length_append, List.length_singleton]
    unfold bufferSize at h ⊢
    omega
  exact ⟨hmod, remainder_eq_nil_iff.mpr (Nat.dvd_of_mod_eq_zero hmod)⟩

theorem issued_snoc_lineEnd {stream : List UInt8} {b : UInt8} (hb : isLineEnd b = true) :
    issued (stream ++ [b]) = issued stream ++
      [remainder (opened isLineEnd stream)].filter (· ≠ []) := by
  rw [issued, (pieces_snoc_separator hb).1, List.map_append, List.filter_append]
  rfl

theorem issued_snoc_other {stream : List UInt8} {b : UInt8} (hb : isLineEnd b = false) :
    issued (stream ++ [b]) = issued stream := by
  rw [issued, (pieces_snoc_other hb).1]
  rfl

/-- The loop does the right thing with a stream unless a line is longer than the buffer, and it
does not fill the buffer a whole number of times. -/
theorem issued_eq_iff {stream : List UInt8} :
    (issued stream =
      (completed isLineEnd stream).filter fun line => line ≠ [] ∧ line.length < bufferSize) ↔
      ∀ line ∈ completed isLineEnd stream, line.length < bufferSize ∨ bufferSize ∣ line.length := by
  have hissued : issued stream =
      ((completed isLineEnd stream).filter (remainder · ≠ [])).map remainder := by
    rw [issued, List.filter_map]
    rfl
  rw [hissued]
  constructor
  · intro h line hline
    have hwithin : ∀ line : List UInt8, decide (line ≠ [] ∧ line.length < bufferSize) = true →
        decide (remainder line ≠ []) = true := by
      intro line hshort
      obtain ⟨hne, hlt⟩ := of_decide_eq_true hshort
      exact decide_eq_true (by rwa [remainder_of_lt hlt])
    have hlen := congrArg List.length h
    rw [List.length_map] at hlen
    by_cases hnil : remainder line = []
    · exact .inr (remainder_eq_nil_iff.mp hnil)
    · have hshort := imp_of_length_filter hwithin hlen line hline (decide_eq_true hnil)
      exact .inl (of_decide_eq_true hshort).2
  · intro h
    have hsame : (completed isLineEnd stream).filter (remainder · ≠ []) =
        (completed isLineEnd stream).filter fun line => line ≠ [] ∧ line.length < bufferSize := by
      refine List.filter_congr fun line hline => decide_eq_decide.mpr ?_
      rcases h line hline with hlt | hdvd
      · rw [remainder_of_lt hlt]
        exact (and_iff_left hlt).symm
      · refine iff_of_false (not_not.mpr (remainder_eq_nil_iff.mpr hdvd)) fun ⟨hne, hlt⟩ => ?_
        exact hne (List.eq_nil_of_length_eq_zero (Nat.eq_zero_of_dvd_of_lt hdvd hlt))
    rw [hsame]
    refine (List.map_congr_left fun line hline => ?_).trans (List.map_id _)
    exact remainder_of_lt (of_decide_eq_true (List.mem_filter.mp hline).2).2

/-! ### One step -/

/-- The command that stands in the buffer and is passed on next. -/
def State.pending (s : State) : List (List UInt8) :=
  if s.pc = .execSshCommand then s.rxBuff.toList.map (cString · 0 bufferSize) else []

/-- The open line is in the buffer as far as it has not been dropped, and the commands are those of
the lines before it. -/
structure Assembling (s : State) : Prop where
  stored : ∀ index ∈ s.stored, index < bufferSize
  index : s.index = (opened isLineEnd s.stream).length % bufferSize
  kept : ∀ m, s.rxBuff = some m →
    readAt m 0 s.index = remainder (opened isLineEnd s.stream)
  passed : 0 ∉ s.stream → s.commands ++ s.pending = issued s.stream
  fresh : s.pc.settingUp = true → s.stream = []
  idle : s.pc = .uartReadBytes → s.byteCount = 0
  turned : s.pc.inCommand = true → s.index = 0

theorem assembling_start : Assembling start where
  stored := by simp [State.stored, start]
  index := rfl
  kept := by simp [start]
  passed := fun _ => rfl
  fresh := fun _ => rfl
  idle := fun _ => rfl
  turned := fun _ => rfl

section Steps
variable {s t : State}

theorem pending_of_ne (h : s.pc ≠ .execSshCommand) : s.pending = [] := if_neg h

/-- Whatever is in the buffer when nothing is left of the open line. -/
theorem Assembling.kept_of_index (h : Assembling s) (hzero : s.index = 0) (m : Nat → UInt8) :
    readAt m 0 s.index = remainder (opened isLineEnd s.stream) := by
  have hnil : remainder (opened isLineEnd s.stream) = [] := by
    rw [remainder_eq_nil_iff, Nat.dvd_iff_mod_eq_zero, ← h.index, hzero]
  rw [hnil, hzero, readAt_zero]

/-- A step outside of the loop that neither takes a byte nor passes on a command. -/
theorem Assembling.leave (h : Assembling s) (hpending : s.pending = [])
    (hstream : t.stream = s.stream) (hstored : t.stored = s.stored)
    (hcommands : t.commands = s.commands) (hindex : t.index = s.index)
    (hrx : t.rxBuff = s.rxBuff ∨ s.index = 0)
    (hsetup : t.pc.settingUp = true → s.pc.settingUp = true)
    (hread : t.pc ≠ .uartReadBytes) (hcommand : t.pc.inCommand = false) : Assembling t where
  stored := by
    rw [hstored]
    exact h.stored
  index := by
    rw [hindex, hstream]
    exact h.index
  kept := by
    intro m hm
    rw [hindex, hstream]
    rcases hrx with hrx | hzero
    · exact h.kept m (hrx ▸ hm)
    · exact h.kept_of_index hzero m
  passed := by
    intro hfree
    rw [hstream] at hfree ⊢
    rw [hcommands, pending_of_ne, List.append_nil, ← h.passed hfree, hpending, List.append_nil]
    intro heq
    exact absurd hcommand (by simp [heq, Pc.inCommand])
  fresh := by
    rw [hstream]
    exact fun hpc => h.fresh (hsetup hpc)
  idle := fun hpc => absurd hpc hread
  turned := fun hpc => absurd (hpc.symm.trans hcommand) (by simp)

theorem Assembling.goto (h : Assembling s) (hpending : s.pending = []) {pc : Pc}
    (hsetup : pc.settingUp = true → s.pc.settingUp = true) (hread : pc ≠ .uartReadBytes)
    (hcommand : pc.inCommand = false) : Assembling (s.goto pc) :=
  h.leave hpending rfl rfl rfl rfl (.inl rfl) hsetup hread hcommand

theorem Assembling.index_lt (h : Assembling s) : s.index < bufferSize := by
  rw [h.index]
  exact Nat.mod_lt _ (by decide)

@[simp] theorem stream_store (s : State) (m : Nat → UInt8) (b : UInt8) :
    (store s m b).stream = s.stream ++ [b] := by
  unfold store State.stream
  split <;> simp [Call.byte]

@[simp] theorem stored_store (s : State) (m : Nat → UInt8) (b : UInt8) :
    (store s m b).stored = s.stored ++ [s.index] := by
  unfold store State.stored
  split <;> simp [Call.index]

@[simp] theorem commands_store (s : State) (m : Nat → UInt8) (b : UInt8) :
    (store s m b).commands = s.commands := by
  unfold store State.commands
  split <;> simp [Call.command]

/-- The end of a line puts a terminator behind what is left of it. -/
theorem Assembling.holdsString (h : Assembling s) {m : Nat → UInt8} (hm : s.rxBuff = some m)
    (hfree : 0 ∉ s.stream) (b : UInt8) :
    HoldsString (writeAt (writeAt m s.index [b]) s.index [0]) 0
      (remainder (opened isLineEnd s.stream)) := by
  have hlen : (remainder (opened isLineEnd s.stream)).length = s.index := by
    rw [length_remainder, h.index]
  refine ⟨fun hzero => hfree (mem_of_mem_opened (List.mem_of_mem_drop hzero)), ?_⟩
  have happend := readAt_writeAt_append (writeAt m s.index [b]) 0 s.index [0]
  rw [Nat.zero_add] at happend
  rw [hlen, ← h.kept m hm]
  refine happend.trans ?_
  rw [readAt_writeAt_of_disjoint m [b] (.inl (Nat.le_of_eq (Nat.zero_add _)))]

theorem assembling_testByteCount (hstored : ∀ index ∈ t.stored, index < bufferSize)
    (hindex : t.index = (opened isLineEnd t.stream).length % bufferSize)
    (hkept : ∀ m, t.rxBuff = some m → readAt m 0 t.index = remainder (opened isLineEnd t.stream))
    (hpassed : 0 ∉ t.stream → t.commands ++ (testByteCount t).pending = issued t.stream)
    (hzero : 0 < t.byteCount → t.index = 0) : Assembling (testByteCount t) := by
  by_cases hpos : 0 < t.byteCount
  · have hpc : (testByteCount t).pc = .execSshCommand := if_pos hpos
    refine ⟨hstored, hindex, hkept, hpassed, ?_, ?_, fun _ => hzero hpos⟩
    · exact fun h => absurd (hpc ▸ h) (by decide)
    · exact fun h => absurd (hpc.symm.trans h) (by decide)
  · have hpc : (testByteCount t).pc = .uartReadBytes := if_neg hpos
    refine ⟨hstored, hindex, hkept, hpassed, ?_, fun _ => Nat.eq_zero_of_not_pos hpos, ?_⟩
    · exact fun h => absurd (hpc ▸ h) (by decide)
    · exact fun h => absurd (hpc ▸ h) (by decide)

/-- What is left of the line that ends is the next command, unless it is nothing. -/
theorem pending_lineEnd (h : Assembling s) {m : Nat → UInt8} (hm : s.rxBuff = some m)
    (hfree : 0 ∉ s.stream) {b : UInt8} (hb : isLineEnd b = true) :
    (testByteCount (store s m b)).pending =
      [remainder (opened isLineEnd s.stream)].filter (· ≠ []) := by
  have hlen : (remainder (opened isLineEnd s.stream)).length = s.index := by
    rw [length_remainder, h.index]
  have hcount : (store s m b).byteCount = s.index := by simp [store, hb]
  have hrx : (store s m b).rxBuff = some (writeAt (writeAt m s.index [b]) s.index [0]) := by
    simp [store, hb]
  by_cases hpos : 0 < s.index
  · have hne : remainder (opened isLineEnd s.stream) ≠ [] :=
      List.ne_nil_of_length_pos (hlen ▸ hpos)
    have hstring := (h.holdsString hm hfree b).cString_eq (hlen ▸ h.index_lt)
    have hpc : (testByteCount (store s m b)).pc = .execSshCommand := if_pos (hcount ▸ hpos)
    have hrx' : (testByteCount (store s m b)).rxBuff = _ := hrx
    rw [List.filter_cons_of_pos (by simpa using hne), List.filter_nil, State.pending, if_pos hpc,
      hrx']
    exact congrArg (fun command => [command]) hstring
  · have hnil : remainder (opened isLineEnd s.stream) = [] :=
      List.eq_nil_of_length_eq_zero (by omega)
    have hpc : (testByteCount (store s m b)).pc = .uartReadBytes := if_neg (hcount ▸ hpos)
    rw [List.filter_cons_of_neg (by simp [hnil]), List.filter_nil, pending_of_ne (by simp [hpc])]

theorem Assembling.commands_eq (h : Assembling s) (hpc : s.pc ≠ .execSshCommand)
    (hfree : 0 ∉ s.stream) : s.commands = issued s.stream := by
  have hpassed := h.passed hfree
  rwa [pending_of_ne hpc, List.append_nil] at hpassed

theorem Assembling.stored_store (h : Assembling s) (m : Nat → UInt8) (b : UInt8) :
    ∀ index ∈ (store s m b).stored, index < bufferSize := by
  intro index hi
  rw [ShellSession.stored_store] at hi
  rcases List.mem_append.mp hi with hi | hi
  · exact h.stored index hi
  · exact List.mem_singleton.mp hi ▸ h.index_lt

theorem assembling_lineEnd (h : Assembling s) (hpc : s.pc ≠ .execSshCommand) {m : Nat → UInt8}
    (hm : s.rxBuff = some m) {b : UInt8} (hb : isLineEnd b = true) :
    Assembling (testByteCount (store s m b)) := by
  have hopened : opened isLineEnd (s.stream ++ [b]) = [] := (pieces_snoc_separator hb).2
  have hindex : (store s m b).index = 0 := by simp [store, hb]
  refine assembling_testByteCount (h.stored_store m b) ?_ ?_ ?_ fun _ => hindex
  · rw [stream_store, hopened, hindex]
    rfl
  · intro _ _
    rw [stream_store, hopened, hindex]
    rfl
  · intro hfree
    rw [stream_store] at hfree ⊢
    have hfree' : 0 ∉ s.stream := mt (List.mem_append_left [b]) hfree
    rw [commands_store, h.commands_eq hpc hfree', pending_lineEnd h hm hfree' hb,
      issued_snoc_lineEnd hb]

theorem assembling_other (h : Assembling s) (hpc : s.pc ≠ .execSshCommand)
    (hcount : s.byteCount = 0) {m : Nat → UInt8} (hm : s.rxBuff = some m) {b : UInt8}
    (hb : isLineEnd b = false) : Assembling (testByteCount (store s m b)) := by
  have hopened : opened isLineEnd (s.stream ++ [b]) = opened isLineEnd s.stream ++ [b] :=
    (pieces_snoc_other hb).2
  have hindex : (store s m b).index = if bufferSize ≤ s.index + 1 then 0 else s.index + 1 := by
    simp [store, hb]
  have hrx : (store s m b).rxBuff = some (writeAt m s.index [b]) := by simp [store, hb]
  have hstill : ¬0 < (store s m b).byteCount := by simp [store, hb, hcount]
  refine assembling_testByteCount (h.stored_store m b) ?_ ?_ ?_ fun hpos => absurd hpos hstill
  · rw [stream_store, hopened, hindex, h.index]
    by_cases hfull : bufferSize ≤ (opened isLineEnd s.stream).length % bufferSize + 1
    · rw [if_pos hfull]
      exact (remainder_snoc_full hfull).1.symm
    · rw [if_neg hfull]
      exact (remainder_snoc (Nat.lt_of_not_le hfull)).1.symm
  · intro m' hm'
    obtain rfl := Option.some.inj (hrx.symm.trans hm')
    rw [stream_store, hopened, hindex]
    by_cases hfull : bufferSize ≤ s.index + 1
    · rw [if_pos hfull]
      rw [h.index] at hfull
      exact (remainder_snoc_full hfull).2.symm
    · rw [if_neg hfull]
      rw [h.index] at hfull
      rw [(remainder_snoc (Nat.lt_of_not_le hfull)).2, ← h.kept m hm]
      have happend := readAt_writeAt_append m 0 s.index [b]
      rwa [Nat.zero_add] at happend
  · intro hfree
    have hread : (testByteCount (store s m b)).pc = .uartReadBytes := if_neg hstill
    rw [stream_store] at hfree ⊢
    rw [commands_store, h.commands_eq hpc (mt (List.mem_append_left [b]) hfree),
      issued_snoc_other hb, pending_of_ne (by simp [hread]), List.append_nil]

theorem assembling_execSshCommand (h : Assembling s) (hpc : s.pc = .execSshCommand)
    {m : Nat → UInt8} (hm : s.rxBuff = some m) (opened : Bool) :
    Assembling
      { s with
        pc := if opened then .readChannel else .setFail
        calls := s.calls ++ [.execSshCommand (cString m 0 bufferSize)] } := by
  have hnext : ∀ pc : Pc, pc = (if opened then .readChannel else .setFail) →
      pc.settingUp = false ∧ pc ≠ .uartReadBytes ∧ pc ≠ .execSshCommand := by
    rintro pc rfl
    cases opened <;> decide
  obtain ⟨hsetup, hread, hexec⟩ := hnext _ rfl
  have hstream : (s.calls ++ [Call.execSshCommand (cString m 0 bufferSize)]).filterMap Call.byte =
      s.stream := by simp [State.stream, Call.byte]
  have hturned : s.index = 0 := h.turned (by rw [hpc]; rfl)
  refine ⟨fun index hi => ?_, ?_, fun m' _ => ?_, fun hfree => ?_, ?_,
    fun heq => absurd heq hread, fun _ => hturned⟩
  · refine h.stored index ?_
    simpa [State.stored, Call.index] using hi
  · rw [State.stream, hstream]
    exact h.index
  · rw [State.stream, hstream]
    exact h.kept_of_index hturned m'
  · rw [State.stream, hstream] at hfree ⊢
    have hpassed := h.passed hfree
    rw [State.pending, if_pos hpc, hm] at hpassed
    rw [pending_of_ne hexec, List.append_nil, ← hpassed]
    simp [State.commands, Call.command]
  · exact fun heq => absurd (heq.symm.trans hsetup) (by simp)

/-- The answer to a command takes the place of everything in the buffer. -/
theorem assembling_afterRead (h : Assembling s) (hpc : s.pc = .readChannel) {c : Channel}
    (hstep : afterRead s c = some t) : Assembling t := by
  have hpending : s.pending = [] := pending_of_ne (by simp [hpc])
  have hturned : s.index = 0 := h.turned (by rw [hpc]; rfl)
  obtain ⟨bytecount, _, hstep⟩ := Option.map_eq_some_iff.mp hstep
  split at hstep
  · subst hstep
    exact h.leave hpending rfl rfl rfl rfl (.inr hturned) (by simp [Pc.settingUp]) (by simp) rfl
  · split at hstep
    · subst hstep
      exact h.goto hpending (by simp [Pc.settingUp]) (by simp) rfl
    · subst hstep
      refine ⟨h.stored, h.index, fun m _ => h.kept_of_index hturned m, fun hfree => ?_,
        fun heq => absurd heq (by simp [Pc.settingUp]), fun _ => rfl, fun _ => hturned⟩
      exact (congrArg (s.commands ++ ·) hpending).symm.trans (h.passed hfree)

theorem assembling_step (s : State) (l : Label) (t : State) (h : Assembling s)
    (hstep : step s l = some t) : Assembling t := by
  obtain ⟨hpc, hstep⟩ := Option.ite_none_right_eq_some.mp hstep
  have hpending : l.pc ≠ .execSshCommand → s.pending = [] := fun hne => pending_of_ne (hpc ▸ hne)
  cases l with
  | initializeLibssh _ | createSocket _ | connect _ | createSshSession _ =>
      obtain rfl := Option.some.inj hstep
      refine h.goto (hpending (by simp [Label.pc])) (fun _ => by rw [hpc]; rfl) ?_ ?_
      all_goals split <;> decide
  | malloc txBuff rxBuff =>
      obtain rfl := Option.some.inj hstep
      have hopened : opened isLineEnd s.stream = [] := by
        rw [h.fresh (by rw [hpc]; rfl)]
        rfl
      refine ⟨h.stored, ?_, fun m _ => ?_, fun hfree => ?_,
        fun heq => absurd heq (by simp [Pc.settingUp]), fun _ => rfl, fun _ => rfl⟩
      · exact (congrArg (·.length % bufferSize) hopened).symm
      · exact (congrArg remainder hopened).symm
      · exact (congrArg (s.commands ++ ·) (hpending (by simp [Label.pc]))).symm.trans
          (h.passed hfree)
  | uartReadBytes byte =>
      have hnone := hpending (by simp [Label.pc])
      cases byte with
      | none =>
          obtain rfl := Option.some.inj hstep
          have hidle := h.idle hpc
          have hread : (testByteCount s).pc = .uartReadBytes := if_neg (by omega)
          refine assembling_testByteCount h.stored h.index h.kept (fun hfree => ?_) (by omega)
          rw [pending_of_ne (by simp [hread]), ← h.passed hfree, hnone]
      | some b =>
          cases hm : s.rxBuff with
          | none =>
              simp only [effect, hm] at hstep
              obtain rfl := Option.some.inj hstep
              exact h.goto hnone (by simp [Pc.settingUp]) (by simp) rfl
          | some m =>
              simp only [effect, hm] at hstep
              obtain rfl := Option.some.inj hstep
              have hne : s.pc ≠ .execSshCommand := by simp [hpc, Label.pc]
              cases hb : isLineEnd b with
              | true => exact assembling_lineEnd h hne hm hb
              | false => exact assembling_other h hne (h.idle hpc) hm hb
  | execSshCommand opened =>
      cases hm : s.rxBuff with
      | none =>
          simp only [effect, hm] at hstep
          obtain rfl := Option.some.inj hstep
          have hnone : s.pending = [] := by simp [State.pending, hm]
          exact h.goto hnone (by simp [Pc.settingUp]) (by simp) rfl
      | some m =>
          simp only [effect, hm] at hstep
          obtain rfl := Option.some.inj hstep
          have hsame := assembling_execSshCommand h hpc hm opened
          rwa [hm] at hsame
  | readChannel rs =>
      obtain ⟨m, _, hstep⟩ := Option.bind_eq_some_iff.mp hstep
      exact assembling_afterRead h hpc hstep
  | setFail | setFinish =>
      obtain rfl := Option.some.inj hstep
      refine h.leave (hpending (by simp [Label.pc])) ?_ ?_ ?_ rfl (.inl rfl)
        (by simp [Pc.settingUp]) (by simp) rfl
      · simp [State.stream, Call.byte]
      · simp [State.stored, Call.index]
      · simp [State.commands, Call.command]
  | vTaskDelete =>
      obtain rfl := Option.some.inj hstep
      exact h.goto (hpending (by simp [Label.pc])) (by simp [Pc.settingUp]) (by simp) rfl

theorem assembling_run {labels : List Label} (hrun : run step start labels = some t) :
    Assembling t :=
  (always_of_invariant (fun _ h => h) assembling_step assembling_start labels).last hrun

/-- Between its commands the task has passed on what is left of every line that has ended. -/
theorem commands_eq_issued {labels : List Label} (hrun : run step start labels = some t)
    (hpc : t.pc ≠ .execSshCommand) (hfree : 0 ∉ t.stream) : t.commands = issued t.stream :=
  (assembling_run hrun).commands_eq hpc hfree

/-- The commands are the right ones exactly when no line is too long, unless it fills the buffer a
whole number of times and leaves nothing. -/
theorem lines_assembled_iff {labels : List Label} (hrun : run step start labels = some t)
    (hpc : t.pc ≠ .execSshCommand) (hfree : 0 ∉ t.stream) :
    LinesAssembled t ↔ ∀ line ∈ completed isLineEnd t.stream,
      line.length < bufferSize ∨ bufferSize ∣ line.length := by
  rw [← issued_eq_iff, ← commands_eq_issued hrun hpc hfree]
  exact ⟨fun h => h.passed, fun h => ⟨(assembling_run hrun).stored, h⟩⟩

end Steps

/-- Two letters and a carriage return, with a time-out before them. -/
def shortSession : List Label :=
  [.initializeLibssh 0, .createSocket 3, .connect 0, .createSshSession true,
    .malloc (some fun _ => 0) (some fun _ => 0), .uartReadBytes none, .uartReadBytes (some 108),
    .uartReadBytes (some 115), .uartReadBytes (some 13), .execSshCommand true,
    .readChannel [.data []]]

theorem lines_assembled_short : ∃ t, run step start shortSession = some t ∧ LinesAssembled t := by
  have hseen : (run step start shortSession).map (fun t => (t.pc, t.stream)) =
      some (.uartReadBytes, [108, 115, 13]) := rfl
  obtain ⟨t, hrun, ht⟩ := Option.map_eq_some_iff.mp hseen
  obtain ⟨hpc, hstream⟩ := Prod.mk.inj ht
  refine ⟨t, hrun, (lines_assembled_iff hrun (by simp [hpc]) (by simp [hstream])).mpr ?_⟩
  have hcompleted : completed isLineEnd t.stream = [[108, 115]] := by
    rw [hstream]
    rfl
  intro line hline
  rw [hcompleted] at hline
  rw [List.mem_singleton.mp hline]
  decide

/-! ### Streams that are too long for the buffer -/

/-- The task waits for a byte, and its buffers are there. -/
structure Ready (s : State) : Prop where
  pc : s.pc = .uartReadBytes
  byteCount : s.byteCount = 0
  txBuff : s.txBuff.isSome = true
  rxBuff : s.rxBuff.isSome = true

theorem ready_afterRead {s : State} (htx : s.txBuff.isSome = true) {c : Channel}
    (hc : c.returned = some 0) :
    ∃ t, afterRead s c = some t ∧ Ready t ∧ t.stream = s.stream := by
  obtain ⟨tx, htx⟩ := Option.isSome_iff_exists.mp htx
  rw [afterRead, hc, Option.map_some, if_neg (Int.lt_irrefl 0), htx]
  exact ⟨_, rfl, ⟨rfl, rfl, rfl, rfl⟩, rfl⟩

/-- A command with an empty answer. -/
theorem exists_command {s : State} (hpc : s.pc = .execSshCommand)
    (htx : s.txBuff.isSome = true) (hrx : s.rxBuff.isSome = true) :
    ∃ t, run step s [.execSshCommand true, .readChannel [.data []]] = some t ∧ Ready t ∧
      t.stream = s.stream := by
  obtain ⟨m, hm⟩ := Option.isSome_iff_exists.mp hrx
  have hexec : step s (.execSshCommand true) = _ := if_pos hpc
  simp only [effect, hm] at hexec
  have hread : (SshDriver.readChannel bufferSize m [.data []]).returned = some 0 := rfl
  obtain ⟨t, ht, hready, hstream⟩ := ready_afterRead (s :=
    { s with
      pc := .readChannel, rxBuff := some m
      calls := s.calls ++ [.execSshCommand (cString m 0 bufferSize)] }) htx hread
  refine ⟨t, run_cons_eq_some.mpr ⟨_, hexec, run_cons_eq_some.mpr ⟨t, ht, rfl⟩⟩, hready, ?_⟩
  rw [hstream]
  simp [State.stream, Call.byte]

/-- A byte comes in, and if it ends a line the command succeeds. -/
theorem exists_turn {s : State} (h : Ready s) (b : UInt8) : ∃ labels t,
    run step s labels = some t ∧ Ready t ∧ t.stream = s.stream ++ [b] := by
  obtain ⟨m, hm⟩ := Option.isSome_iff_exists.mp h.rxBuff
  have hread : step s (.uartReadBytes (some b)) = some (testByteCount (store s m b)) := by
    have heffect : step s (.uartReadBytes (some b)) = _ := if_pos h.pc
    rw [heffect, effect, hm]
  have hrx : (store s m b).rxBuff.isSome = true := by
    unfold store
    split <;> rfl
  have htx : (store s m b).txBuff.isSome = true := by
    unfold store
    split <;> exact h.txBuff
  by_cases hpos : 0 < (store s m b).byteCount
  · obtain ⟨t, hrun, hready, hstream⟩ :=
      exists_command (s := testByteCount (store s m b)) (if_pos hpos) htx hrx
    refine ⟨_, t, run_cons_eq_some.mpr ⟨_, hread, hrun⟩, hready, hstream.trans ?_⟩
    exact stream_store s m b
  · have hpc : (testByteCount (store s m b)).pc = .uartReadBytes := if_neg hpos
    have hcount : (testByteCount (store s m b)).byteCount = 0 := Nat.eq_zero_of_not_pos hpos
    refine ⟨[.uartReadBytes (some b)], _, ?_, ⟨hpc, hcount, htx, hrx⟩, stream_store s m b⟩
    exact run_cons_eq_some.mpr ⟨_, hread, rfl⟩

/-- Every stream can come in. -/
theorem exists_run_of_stream (stream : List UInt8) : ∃ labels t,
    run step start labels = some t ∧ Ready t ∧ t.stream = stream := by
  induction stream using List.reverseRecOn with
  | nil =>
      refine ⟨[.initializeLibssh 0, .createSocket 3, .connect 0, .createSshSession true,
        .malloc (some fun _ => 0) (some fun _ => 0)], _, rfl, ⟨rfl, rfl, rfl, rfl⟩, rfl⟩
  | append_singleton stream b ih =>
      obtain ⟨labels, s, hrun, hready, hstream⟩ := ih
      obtain ⟨more, t, hmore, hready', hstream'⟩ := exists_turn hready b
      refine ⟨labels ++ more, t, ?_, hready', hstream ▸ hstream'⟩
      rw [run_append_of_run hrun, hmore]

theorem remainder_replicate (n : Nat) (b : UInt8) :
    remainder (List.replicate n b) = List.replicate (n % bufferSize) b := by
  have hle := Nat.mod_le n bufferSize
  rw [remainder, List.length_replicate, List.drop_replicate, Nat.sub_sub_self hle]

theorem completed_line {line : List UInt8} (h : ∀ b ∈ line, isLineEnd b = false) {b : UInt8}
    (hb : isLineEnd b = true) : completed isLineEnd (line ++ [b]) = [line] := by
  obtain ⟨hnone, hline⟩ := pieces_of_free h
  rw [(pieces_snoc_separator hb).1, hnone, hline, List.nil_append]

/-- A line one byte too long: what does not fit is executed as a command of its own. -/
theorem long_line_executed : ∃ labels t, run step start labels = some t ∧
    t.pc ≠ .execSshCommand ∧ t.stream = List.replicate (bufferSize + 1) 97 ++ [13] ∧
    0 ∉ t.stream ∧ t.commands = [[97]] ∧ ¬LinesAssembled t := by
  obtain ⟨labels, t, hrun, hready, hstream⟩ :=
    exists_run_of_stream (List.replicate (bufferSize + 1) 97 ++ [13])
  have hpc : t.pc ≠ .execSshCommand := by simp [hready.pc]
  have hfree : 0 ∉ t.stream := by
    rw [hstream]
    simp [List.mem_replicate]
  have hline : completed isLineEnd t.stream = [List.replicate (bufferSize + 1) 97] := by
    rw [hstream]
    exact completed_line (fun b hb => by rw [List.eq_of_mem_replicate hb]; rfl) rfl
  have hcommands : t.commands = [[97]] := by
    rw [commands_eq_issued hrun hpc hfree, issued, hline, List.map_singleton, remainder_replicate]
    rfl
  refine ⟨labels, t, hrun, hpc, hstream, hfree, hcommands, fun h => ?_⟩
  have hpassed := h.passed
  rw [hcommands, hline, List.filter_cons_of_neg (by simp)] at hpassed
  exact absurd hpassed (by decide)

end InfoGlobe.ShellSession
