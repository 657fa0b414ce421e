import InfoGlobe.Firmware.DisplaySources
import InfoGlobe.Firmware.FrameMaker

/-!
The start of the firmware: `app_main`, the frame maker and the message server, which meet in an
event group that the time synchronization sets. Each statement is a step, and the tasks interleave
in any way once they have been created.
-/

namespace InfoGlobe.Startup
open StepSystem Animations DisplaySources FrameMaker

inductive MainPc
  | createQueue | createIrTx | createFrameMaker | returned
  deriving DecidableEq

inductive MakerPc
  | absent | bootMsg | fwVersion | initTimeSync | createTcpServer | testGroup
  /-- `xEventGroupWaitBits` on the group that the variable held. -/
  | waitBits (group : Nat)
  | createOtaServer | createButton | loop
  deriving DecidableEq

inductive ServerPc
  | absent | connecting | nvsFlashInit | netifInit | eventLoopCreate | exampleConnect | connected
  | showIp | testGroup | pollSync | setBits | listening
  deriving DecidableEq

/-- What a frame on the display is about, in the order of a start. -/
inductive Stage
  | boot | connecting | connected | address | clock
  deriving DecidableEq

def Stage.rank : Stage → Nat
  | .boot => 0
  | .connecting => 1
  | .connected => 2
  | .address => 3
  | .clock => 4

structure State where
  main : MainPc
  maker : MakerPc
  server : ServerPc
  irTx : Bool
  otaServer : Bool
  button : Bool
  /-- `timeSyncEventGroup`; groups are numbered in the order of their creation. -/
  group : Option Nat
  created : Nat
  /-- The groups in which `TIME_SYNC_BIT` is set. -/
  bits : List Nat
  vars : LoopVars
  /-- The frames offered to the display queue. -/
  offered : List (Stage × MsgBuffer)
  /-- The result of the first `xEventGroupCreate`. -/
  firstCreate : Option Bool
  /-- `sntp_get_sync_status` has left its reset value. -/
  synced : Bool
  /-- An assertion or an `ESP_ERROR_CHECK` has failed. -/
  aborted : Bool

inductive Label
  | queueCreate (ok : Bool)
  | irTxCreate (ok : Bool)
  | frameMakerCreate (ok : Bool)
  /-- Frames need a buffer from `malloc`. -/
  | bootMsg (allocated : Bool)
  | fwVersion (allocated : Bool)
  | initTimeSync (ok : Bool)
  | tcpServerCreate (ok : Bool)
  | makerTestGroup
  | waitBits
  | otaServerCreate (ok : Bool)
  | buttonCreate (ok : Bool)
  | turn (ticks : TickMacros) (t : Turn) (allocated : Bool)
  | connecting (allocated : Bool)
  | nvsFlashInit (ok : Bool)
  | netifInit (ok : Bool)
  | eventLoopCreate (ok : Bool)
  | exampleConnect (ok : Bool)
  | connected (allocated : Bool)
  | showIp (ok : Bool) (ip : Option (UInt8 × UInt8 × UInt8 × UInt8)) (allocated : Bool)
  /-- The test at the head of `init_sntp`, with the result of a creation there. -/
  | serverTestGroup (ok : Bool)
  | pollSync (reset : Bool)
  | setBits

def powerOn : State where
  main := .createQueue
  maker := .absent
  server := .absent
  irTx := false
  otaServer := false
  button := false
  group := none
  created := 0
  bits := []
  vars := .initial
  offered := []
  firstCreate := none
  synced := false
  aborted := false

def State.offer (s : State) (allocated : Bool) (stage : Stage) (frame : MsgBuffer) : State :=
  { s with offered := s.offered ++ if allocated then [(stage, frame)] else [] }

/-- `timeSyncEventGroup = xEventGroupCreate()`. -/
def State.createGroup (s : State) (ok : Bool) : State :=
  if ok then { s with group := some s.created, created := s.created + 1 }
  else { s with group := none }

def State.errorCheck (s : State) (ok : Bool) (next : ServerPc) : State :=
  if ok then { s with server := next } else { s with aborted := true }

def bootMsgFrame : MsgBuffer := runBootAnimation.head (by decide)
def fwVersionFrame : MsgBuffer := runBootAnimation.getLast (by decide)

/-- Whose turn a label is, and that the call can return. -/
def enabled (s : State) : Label → Bool
  | .queueCreate _ => s.main = .createQueue
  | .irTxCreate _ => s.main = .createIrTx
  | .frameMakerCreate _ => s.main = .createFrameMaker
  | .bootMsg _ => s.maker = .bootMsg
  | .fwVersion _ => s.maker = .fwVersion
  | .initTimeSync _ => s.maker = .initTimeSync
  | .tcpServerCreate _ => s.maker = .createTcpServer
  | .makerTestGroup => s.maker = .testGroup
  | .waitBits =>
      match s.maker with
      | .waitBits group => decide (group ∈ s.bits)
      | _ => false
  | .otaServerCreate _ => s.maker = .createOtaServer
  | .buttonCreate _ => s.maker = .createButton
  | .turn _ _ _ => s.maker = .loop
  | .connecting _ => s.server = .connecting
  | .nvsFlashInit _ => s.server = .nvsFlashInit
  | .netifInit _ => s.server = .netifInit
  | .eventLoopCreate _ => s.server = .eventLoopCreate
  | .exampleConnect _ => s.server = .exampleConnect
  | .connected _ => s.server = .connected
  | .showIp _ _ _ => s.server = .showIp
  | .serverTestGroup _ => s.server = .testGroup
  | .pollSync _ => s.server = .pollSync
  | .setBits => s.server = .setBits

def effect (s : State) : Label → State
  | .queueCreate ok => { s with main := if ok then .createIrTx else .returned }
  | .irTxCreate ok => { s with main := .createFrameMaker, irTx := ok }
  | .frameMakerCreate ok =>
      { s with main := .returned, maker := if ok then .bootMsg else .absent }
  | .bootMsg allocated => { s.offer allocated .boot bootMsgFrame with maker := .fwVersion }
  | .fwVersion allocated => { s.offer allocated .boot fwVersionFrame with maker := .initTimeSync }
  | .initTimeSync ok =>
      { s.createGroup ok with maker := .createTcpServer, firstCreate := some ok }
  | .tcpServerCreate ok =>
      { s with maker := .testGroup, server := if ok then .connecting else .absent }
  | .makerTestGroup =>
      { s with maker := match s.group with
          | none => .createOtaServer
          | some group => .waitBits group }
  | .waitBits => { s with maker := .createOtaServer }
  | .otaServerCreate ok => { s with maker := .createButton, otaServer := ok }
  | .buttonCreate ok => { s with maker := .loop, button := ok }
  | .turn ticks t allocated =>
      let turned := loopTurn ticks s.vars t
      let frames := if allocated then turned.2.toList else []
      { s with
        vars := turned.1
        offered := s.offered ++ frames.map fun frame => (.clock, frame) }
  | .connecting allocated =>
      { s.offer allocated .connecting connectingFrame with server := .nvsFlashInit }
  | .nvsFlashInit ok => s.errorCheck ok .netifInit
  | .netifInit ok => s.errorCheck ok .eventLoopCreate
  | .eventLoopCreate ok => s.errorCheck ok .exampleConnect
  | .exampleConnect ok => s.errorCheck ok .connected
  | .connected allocated =>
      { s.offer allocated .connected connectedFrame with server := .showIp }
  -- `lookup_ip` checks the result of `esp_netif_get_ip_info`
  | .showIp ok ip allocated =>
      if ok then
        { s.offer allocated .address (singleStringRotate (ipText ip) (ipText ip).length) with
          server := .testGroup }
      else { s with aborted := true }
  | .serverTestGroup ok =>
      { (match s.group with
          | none => s.createGroup ok
          | some _ => s) with server := .pollSync }
  | .pollSync reset => if reset then s else { s with server := .setBits, synced := true }
  -- `xEventGroupSetBits` asserts that there is a group
  | .setBits =>
      match s.group with
      | none => { s with aborted := true }
      | some group => { s with server := .listening, bits := group :: s.bits }

def step (s : State) (l : Label) : Option State :=
  if s.aborted = false ∧ enabled s l = true then some (effect s l) else none

theorem step_eq_some {s t : State} {l : Label} :
    step s l = some t ↔ (s.aborted = false ∧ enabled s l = true) ∧ effect s l = t := by
  unfold step
  simp only [Option.ite_none_right_eq_some, Option.some.injEq]

/-! ### What a start promises -/

def Open (s : State) : Prop :=
  s.otaServer = true ∨ s.button = true ∨ ∃ e ∈ s.offered, e.1 = .clock

def InStages (s : State) : Prop :=
  (s.offered.map fun e => e.1.rank).Pairwise (· ≤ ·)

/-- The order of a start. Where the first `xEventGroupCreate` has failed, the frame maker may run
ahead of the synchronization, and no more than `waiting` and `woken` is left. -/
structure Orderly (s : State) : Prop where
  synced : s.firstCreate ≠ some false → Open s → s.synced = true
  stages : s.firstCreate ≠ some false → InStages s
  /-- There is one group. -/
  one : s.firstCreate = some true → s.group = some 0 ∧ s.created = 1
  /-- `xEventGroupSetBits` has a group to set. -/
  settable : s.firstCreate ≠ some false → s.server = .setBits → s.group ≠ none
  /-- The frame maker waits on no group but the one of the variable. -/
  waiting : ∀ group, s.maker = .waitBits group → s.group = some group
  /-- The server has woken the frame maker when it listens. -/
  woken : s.server = .listening → ∀ group, s.maker = .waitBits group → group ∈ s.bits

def MakerPc.early : MakerPc → Bool
  | .absent | .bootMsg | .fwVersion | .initTimeSync => true
  | _ => false

def MakerPc.past : MakerPc → Bool
  | .createOtaServer | .createButton | .loop => true
  | _ => false

def ServerPc.synced : ServerPc → Bool
  | .setBits | .listening => true
  | _ => false

/-- The stage of the newest frame there can be. -/
def ServerPc.stage : ServerPc → Nat
  | .absent | .connecting => 0
  | .nvsFlashInit | .netifInit | .eventLoopCreate | .exampleConnect | .connected => 1
  | .showIp => 2
  | .testGroup | .pollSync => 3
  | .setBits | .listening => 4

/-- The display, as far as the server has come. -/
structure Staged (server : ServerPc) (offered : List (Stage × MsgBuffer)) : Prop where
  ordered : (offered.map fun e => e.1.rank).Pairwise (· ≤ ·)
  bounded : ∀ e ∈ offered, e.1.rank ≤ server.stage

structure Inv (s : State) : Prop where
  main : s.main ≠ .returned → s.maker = .absent
  early : s.maker.early = true → s.firstCreate = none ∧ s.group = none ∧ s.created = 0
  served : s.server ≠ .absent → s.maker.early = false ∧ s.maker ≠ .createTcpServer
  begun : s.maker.early = false → s.firstCreate ≠ none
  one : s.firstCreate = some true → s.group = some 0 ∧ s.created = 1
  waiting : ∀ group, s.maker = .waitBits group → s.group = some group
  woken : s.server = .listening → ∀ group, s.group = some group → group ∈ s.bits
  bits : s.bits ≠ [] → s.synced = true
  server : s.synced = s.server.synced
  past : s.firstCreate ≠ some false → s.maker.past = true → s.synced = true
  behind : Open s → s.maker.past = true
  staged : s.firstCreate ≠ some false → Staged s.server s.offered

theorem Inv.created_once {s : State} (h : Inv s) (hlate : s.maker.early = false)
    (hfirst : s.firstCreate ≠ some false) : s.firstCreate = some true := by
  have hbegun := h.begun hlate
  rcases hcase : s.firstCreate with _ | ok
  · exact absurd hcase hbegun
  · cases ok with
    | true => rfl
    | false => exact absurd hcase hfirst

theorem Inv.orderly {s : State} (h : Inv s) : Orderly s := by
  refine ⟨fun hfirst hopen => h.past hfirst (h.behind hopen), fun hfirst => (h.staged hfirst).ordered,
    h.one, ?_, h.waiting, ?_⟩
  · intro hfirst hserver hnone
    have hlate := (h.served (by simp [hserver])).1
    rw [(h.one (h.created_once hlate hfirst)).1] at hnone
    exact absurd hnone (by simp)
  · intro hserver group hmaker
    exact h.woken hserver group (h.waiting group hmaker)

theorem inv_powerOn : Inv powerOn := by
  constructor <;> simp [powerOn, MakerPc.early, MakerPc.past, ServerPc.synced, Open]
  exact ⟨List.Pairwise.nil, by simp⟩

/-! ### The display -/

section Display
variable {server next : ServerPc} {offered : List (Stage × MsgBuffer)}

/-- A frame of the newest stage. -/
theorem Staged.offer (h : Staged server offered) (hle : server.stage ≤ next.stage)
    {frames : List (Stage × MsgBuffer)} (hnew : ∀ e ∈ frames, e.1.rank = next.stage) :
    Staged next (offered ++ frames) := by
  refine ⟨?_, ?_⟩
  · rw [List.map_append, List.pairwise_append]
    refine ⟨h.ordered, ?_, ?_⟩
    · refine List.pairwise_map.mpr (List.pairwise_iff_forall_sublist.mpr ?_)
      intro a b hab
      have ha := hnew a (hab.subset List.mem_cons_self)
      have hb := hnew b (hab.subset (by simp))
      omega
    · intro a ha b hb
      obtain ⟨e, he, rfl⟩ := List.mem_map.mp ha
      obtain ⟨d, hd, rfl⟩ := List.mem_map.mp hb
      have hold := h.bounded e he
      have hrank := hnew d hd
      omega
  · intro e he
    rcases List.mem_append.mp he with he | he
    · exact Nat.le_trans (h.bounded e he) hle
    · exact Nat.le_of_eq (hnew e he)

theorem Staged.mono (h : Staged server offered) (hle : server.stage ≤ next.stage) :
    Staged next offered :=
  ⟨h.ordered, fun e he => Nat.le_trans (h.bounded e he) hle⟩

end Display

/-! ### Each statement -/

section Steps
variable {s : State}

theorem open_offer {allocated : Bool} {stage : Stage} {frame : MsgBuffer} (hstage : stage ≠ .clock)
    (h : Open (s.offer allocated stage frame)) : Open s := by
  rcases h with hota | hbutton | ⟨e, he, hclock⟩
  · exact .inl hota
  · exact .inr (.inl hbutton)
  · rcases List.mem_append.mp he with he | he
    · exact .inr (.inr ⟨e, he, hclock⟩)
    · cases allocated with
      | true =>
          obtain rfl := List.mem_singleton.mp he
          exact absurd hclock hstage
      | false => exact absurd he (by simp)

theorem inv_main (h : Inv s) {l : Label} (hl : l matches .queueCreate _ | .irTxCreate _ |
    .frameMakerCreate _) (henabled : enabled s l = true) : Inv (effect s l) := by
  have ⟨main, early, served, begun, one, waiting, woken, bits, server, past, behind, staged⟩ := h
  cases l with
  | queueCreate ok =>
      have hmain : s.main = .createQueue := by simpa [enabled] using henabled
      exact ⟨fun _ => main (by simp [hmain]), early, served, begun, one, waiting, woken, bits, server,
        past, behind, staged⟩
  | irTxCreate ok =>
      have hmain : s.main = .createIrTx := by simpa [enabled] using henabled
      exact ⟨fun _ => main (by simp [hmain]), early, served, begun, one, waiting, woken, bits, server,
        past, behind, staged⟩
  | frameMakerCreate ok =>
      have hmain : s.main = .createFrameMaker := by simpa [enabled] using henabled
      have hmaker : s.maker = .absent := main (by simp [hmain])
      have hearly := early (by rw [hmaker]; rfl)
      have hserver : s.server = .absent := by
        by_contra hne
        have hlate := (served hne).1
        simp [hmaker, MakerPc.early] at hlate
      have hclosed : ¬Open s := fun hopen => by simpa [hmaker, MakerPc.past] using behind hopen
      refine ⟨by simp [effect], fun _ => hearly, fun hne => absurd hserver hne, ?_, one, ?_, woken,
        bits, server, ?_, fun hopen => absurd hopen hclosed, staged⟩
      · cases ok <;> simp [effect, MakerPc.early]
      · cases ok <;> simp [effect]
      · cases ok <;> simp [effect, MakerPc.past]
  | _ => simp at hl

theorem inv_boot (h : Inv s) {next : MakerPc} {allocated : Bool} {frame : MsgBuffer}
    (hmaker : s.maker = .bootMsg ∨ s.maker = .fwVersion)
    (hnext : next = .fwVersion ∨ next = .initTimeSync) :
    Inv { s.offer allocated .boot frame with maker := next } := by
  have ⟨main, early, served, begun, one, waiting, woken, bits, server, past, behind, staged⟩ := h
  have hearly : s.maker.early = true := by rcases hmaker with h | h <;> rw [h] <;> rfl
  have hserver : s.server = .absent := by
    by_contra hne
    rw [(served hne).1] at hearly
    exact Bool.noConfusion hearly
  have hpast : s.maker.past = false := by rcases hmaker with h | h <;> rw [h] <;> rfl
  have hclosed : ¬Open s := fun hopen => by simp [behind hopen] at hpast
  have hnextEarly : next.early = true := by rcases hnext with h | h <;> rw [h] <;> rfl
  have hnextPast : next.past = false := by rcases hnext with h | h <;> rw [h] <;> rfl
  refine ⟨?_, fun _ => early hearly, fun hne => absurd hserver hne, ?_, one, ?_, woken, bits, server,
    ?_, ?_, ?_⟩
  · intro hmain
    have habsent := main hmain
    rcases hmaker with h | h <;> simp [habsent] at h
  · simp [hnextEarly]
  · rintro group rfl
    exact Bool.noConfusion hnextEarly
  · simp [hnextPast]
  · intro hopen
    exact absurd (open_offer (by simp) hopen) hclosed
  · intro hfirst
    refine (staged hfirst).offer (Nat.le_refl _) ?_
    cases allocated <;> simp [hserver, Stage.rank, ServerPc.stage]

theorem inv_initTimeSync (h : Inv s) (hmaker : s.maker = .initTimeSync) (ok : Bool) :
    Inv (effect s (.initTimeSync ok)) := by
  have ⟨main, early, served, begun, one, waiting, woken, bits, server, past, behind, staged⟩ := h
  obtain ⟨hnone, hgroup, hcreated⟩ := early (by rw [hmaker]; rfl)
  have hserver : s.server = .absent := by
    by_contra hne
    have hlate := (served hne).1
    simp [hmaker, MakerPc.early] at hlate
  have hclosed : ¬Open s := fun hopen => by simpa [hmaker, MakerPc.past] using behind hopen
  have hreturned : s.main = .returned := by
    by_contra hmain
    have habsent := main hmain
    simp [hmaker] at habsent
  have hstaged := staged (by simp [hnone])
  cases ok with
  | true =>
      refine ⟨fun hmain => absurd hreturned hmain, by simp [effect, MakerPc.early],
        fun hne => absurd hserver hne, by simp [effect], ?_, by simp [effect], ?_, bits, server,
        by simp [effect, MakerPc.past], fun hopen => absurd hopen hclosed, fun _ => hstaged⟩
      · intro _
        simp [effect, State.createGroup, hcreated]
      · intro hlisten
        exact absurd (hserver.symm.trans hlisten) (by simp)
  | false =>
      refine ⟨fun hmain => absurd hreturned hmain, by simp [effect, MakerPc.early],
        fun hne => absurd hserver hne, by simp [effect], by simp [effect], by simp [effect], ?_, bits,
        server, by simp [effect, MakerPc.past], fun hopen => absurd hopen hclosed, fun _ => hstaged⟩
      intro hlisten
      exact absurd (hserver.symm.trans hlisten) (by simp)

theorem inv_maker (h : Inv s) (next : MakerPc) (hlate : s.maker.early = false)
    (hnext : next.early = false ∧ next ≠ .createTcpServer)
    (hwaiting : ∀ group, next = .waitBits group → s.group = some group)
    (hpast : s.firstCreate ≠ some false → next.past = true → s.synced = true)
    (hbehind : s.maker.past = true → next.past = true) : Inv { s with maker := next } := by
  have ⟨main, early, served, begun, one, waiting, woken, bits, server, past, behind, staged⟩ := h
  refine ⟨?_, ?_, fun _ => hnext, fun _ => begun hlate, one, hwaiting, woken, bits, server, hpast,
    fun hopen => hbehind (behind hopen), staged⟩
  · intro hmain
    rw [main hmain] at hlate
    exact Bool.noConfusion hlate
  · intro hearly
    exact Bool.noConfusion (hnext.1.symm.trans hearly)

theorem inv_tcpServerCreate (h : Inv s) (hmaker : s.maker = .createTcpServer) (ok : Bool) :
    Inv (effect s (.tcpServerCreate ok)) := by
  have hserver : s.server = .absent := by
    by_contra hne
    exact (h.served hne).2 hmaker
  have ⟨main, early, served, begun, one, waiting, woken, bits, server, past, behind, staged⟩ :=
    inv_maker h .testGroup (by rw [hmaker]; rfl) ⟨rfl, by simp⟩ (by simp)
      (by simp [MakerPc.past]) (by rw [hmaker]; simp [MakerPc.past])
  refine ⟨main, early, fun _ => ⟨rfl, by simp [effect]⟩, begun, one, waiting, ?_, bits, ?_, past,
    behind, ?_⟩
  · cases ok <;> simp [effect]
  · have hnot : s.synced = false := by rw [h.server, hserver]; rfl
    cases ok <;> simp [effect, hnot, ServerPc.synced]
  · intro hfirst
    refine (staged hfirst).mono ?_
    cases ok <;> simp [effect, hserver, ServerPc.stage]

theorem inv_makerTestGroup (h : Inv s) (hmaker : s.maker = .testGroup) :
    Inv (effect s .makerTestGroup) := by
  have hlate : s.maker.early = false := by rw [hmaker]; rfl
  have hnotPast : s.maker.past = false := by rw [hmaker]; rfl
  cases hgroup : s.group with
  | none =>
      have hnext := inv_maker h .createOtaServer hlate ⟨rfl, by simp⟩ (by simp) (by
        intro hfirst _
        have hone := (h.one (h.created_once hlate hfirst)).1
        rw [hgroup] at hone
        exact absurd hone (by simp)) (fun _ => rfl)
      simpa only [effect, hgroup] using hnext
  | some group =>
      have hnext := inv_maker h (.waitBits group) hlate ⟨rfl, by simp⟩ (by
        rintro held ⟨⟩
        exact hgroup) (by simp [MakerPc.past]) (by simp [hnotPast])
      simpa only [effect, hgroup] using hnext

/-- The wait is over only when the server has set the bit, behind the synchronization. -/
theorem inv_waitBits (h : Inv s) {group : Nat} (hmaker : s.maker = .waitBits group)
    (hset : group ∈ s.bits) : Inv (effect s .waitBits) :=
  inv_maker h _ (by rw [hmaker]; rfl) ⟨rfl, by simp⟩ (by simp)
    (fun _ _ => h.bits (List.ne_nil_of_mem hset)) (fun _ => rfl)

theorem inv_created (h : Inv s) {next : MakerPc} {ota button : Bool}
    (hmaker : s.maker.past = true) (hlate : s.maker.early = false) (hnext : next.past = true)
    (hnextLate : next.early = false) :
    Inv { s with maker := next, otaServer := ota, button := button } := by
  have hwaiting : ∀ group, next = .waitBits group → s.group = some group := by
    rintro group rfl
    exact Bool.noConfusion hnext
  have hne : next ≠ .createTcpServer := by
    rintro rfl
    exact Bool.noConfusion hnext
  have ⟨main, early, served, begun, one, waiting, woken, bits, server, past, _, staged⟩ :=
    inv_maker h next hlate ⟨hnextLate, hne⟩ hwaiting (fun hfirst _ => h.past hfirst hmaker)
      (fun _ => hnext)
  exact ⟨main, early, served, begun, one, waiting, woken, bits, server, past, fun _ => hnext, staged⟩

theorem inv_turn (h : Inv s) (hmaker : s.maker = .loop) (ticks : TickMacros) (t : Turn)
    (allocated : Bool) : Inv (effect s (.turn ticks t allocated)) := by
  have ⟨main, early, served, begun, one, waiting, woken, bits, server, past, behind, staged⟩ := h
  have hpast : s.maker.past = true := by rw [hmaker]; rfl
  refine ⟨main, early, served, begun, one, waiting, woken, bits, server, past, fun _ => hpast, ?_⟩
  intro hfirst
  have hsynced : s.server.synced = true := server ▸ past hfirst hpast
  have hstage : s.server.stage = 4 := by
    cases hserver : s.server <;> simp [hserver, ServerPc.synced] at hsynced <;> rfl
  refine (staged hfirst).offer (Nat.le_refl _) ?_
  intro e he
  obtain ⟨frame, _, rfl⟩ := List.mem_map.mp he
  exact hstage.symm

theorem inv_server (h : Inv s) (next : ServerPc) (frames : List (Stage × MsgBuffer))
    (hserver : s.server ≠ .absent) (hle : s.server.stage ≤ next.stage)
    (hsynced : next.synced = s.server.synced) (hlisten : next ≠ .listening)
    (hnew : ∀ e ∈ frames, e.1.rank = next.stage) (hclock : ∀ e ∈ frames, e.1 ≠ .clock) :
    Inv { s with offered := s.offered ++ frames, server := next } := by
  have ⟨main, early, served, begun, one, waiting, woken, bits, server, past, behind, staged⟩ := h
  refine ⟨main, early, fun _ => served hserver, begun, one, waiting,
    fun hlistening => absurd hlistening hlisten, bits, server.trans hsynced.symm, past, ?_,
    fun hfirst => (staged hfirst).offer hle hnew⟩
  rintro (hota | hbutton | ⟨e, he, hstage⟩)
  · exact behind (.inl hota)
  · exact behind (.inr (.inl hbutton))
  · rcases List.mem_append.mp he with he | he
    · exact behind (.inr (.inr ⟨e, he, hstage⟩))
    · exact absurd hstage (hclock e he)

theorem inv_aborted (h : Inv s) : Inv { s with aborted := true } :=
  have ⟨main, early, served, begun, one, waiting, woken, bits, server, past, behind, staged⟩ := h
  ⟨main, early, served, begun, one, waiting, woken, bits, server, past, behind, staged⟩

theorem inv_errorCheck (h : Inv s) {next : ServerPc} (hserver : s.server ≠ .absent)
    (hle : s.server.stage ≤ next.stage) (hsynced : next.synced = s.server.synced)
    (hlisten : next ≠ .listening) (ok : Bool) : Inv (s.errorCheck ok next) := by
  cases ok with
  | true =>
      have hnext := inv_server h next [] hserver hle hsynced hlisten (by simp) (by simp)
      rw [List.append_nil] at hnext
      exact hnext
  | false => exact inv_aborted h

/-- `init_sntp` makes a group only when there is none. -/
theorem inv_serverTestGroup (h : Inv s) (hserver : s.server = .testGroup) (ok : Bool) :
    Inv (effect s (.serverTestGroup ok)) := by
  have hnext := inv_server h .pollSync [] (by simp [hserver])
    (by simp [hserver, ServerPc.stage]) (by simp [hserver, ServerPc.synced]) (by simp) (by simp)
    (by simp)
  rw [List.append_nil] at hnext
  cases hgroup : s.group with
  | some group => simpa only [effect, hgroup] using hnext
  | none =>
      have ⟨main, early, served, begun, one, waiting, _, bits, server, past, behind, staged⟩ := hnext
      have hnotTrue : s.firstCreate ≠ some true := by
        intro htrue
        have hone := (one htrue).1
        rw [hgroup] at hone
        exact absurd hone (by simp)
      have hnotWaiting : ∀ group, s.maker ≠ .waitBits group := by
        intro group hmaker
        have hheld := waiting group hmaker
        rw [hgroup] at hheld
        exact absurd hheld (by simp)
      have hlate := (h.served (by simp [hserver])).1
      cases ok <;>
      · simp only [effect, hgroup, State.createGroup, reduceIte, Bool.false_eq_true]
        exact ⟨main, fun hearly => Bool.noConfusion (hlate.symm.trans hearly), served, begun,
          fun htrue => absurd htrue hnotTrue, fun group hmaker => absurd hmaker (hnotWaiting group),
          fun hlisten => absurd hlisten (by simp), bits, server, past, behind, staged⟩

theorem inv_pollSync (h : Inv s) (hserver : s.server = .pollSync) (reset : Bool) :
    Inv (effect s (.pollSync reset)) := by
  have ⟨main, early, served, begun, one, waiting, woken, bits, server, past, behind, staged⟩ := h
  cases reset with
  | true => exact h
  | false =>
      refine ⟨main, early, fun _ => served (by simp [hserver]), begun, one, waiting,
        fun hlisten => absurd hlisten (by simp [effect]), fun _ => rfl, rfl, fun _ _ => rfl, behind,
        fun hfirst => (staged hfirst).mono ?_⟩
      simp [effect, hserver, ServerPc.stage]

theorem inv_setBits (h : Inv s) (hserver : s.server = .setBits) : Inv (effect s .setBits) := by
  have ⟨main, early, served, begun, one, waiting, woken, bits, server, past, behind, staged⟩ := h
  have hsynced : s.synced = true := by rw [server, hserver]; rfl
  cases hgroup : s.group with
  | none =>
      have haborted := inv_aborted h
      simpa only [effect, hgroup] using haborted
  | some group =>
      have hset : Inv { s with server := .listening, bits := group :: s.bits } := by
        refine ⟨main, early, fun _ => served (by simp [hserver]), begun, one, waiting, ?_,
          fun _ => hsynced, hsynced, past, behind,
          fun hfirst => (staged hfirst).mono (by simp [hserver, ServerPc.stage])⟩
        intro _ held hheld
        obtain rfl := Option.some.inj (hgroup.symm.trans hheld)
        exact List.mem_cons_self
      simpa only [effect, hgroup] using hset

/-- What `enabled` says of each label is the place of its statement. -/
theorem inv_step {s t : State} (h : Inv s) {l : Label} (hstep : step s l = some t) : Inv t := by
  obtain ⟨⟨-, henabled⟩, rfl⟩ := step_eq_some.mp hstep
  cases l with
  | queueCreate ok => exact inv_main h rfl henabled
  | irTxCreate ok => exact inv_main h rfl henabled
  | frameMakerCreate ok => exact inv_main h rfl henabled
  | bootMsg allocated => exact inv_boot h (.inl (of_decide_eq_true henabled)) (.inl rfl)
  | fwVersion allocated => exact inv_boot h (.inr (of_decide_eq_true henabled)) (.inr rfl)
  | initTimeSync ok => exact inv_initTimeSync h (of_decide_eq_true henabled) ok
  | tcpServerCreate ok => exact inv_tcpServerCreate h (of_decide_eq_true henabled) ok
  | makerTestGroup => exact inv_makerTestGroup h (of_decide_eq_true henabled)
  | waitBits =>
      cases hmaker : s.maker with
      | waitBits group =>
          simp only [enabled, hmaker] at henabled
          exact inv_waitBits h hmaker (of_decide_eq_true henabled)
      | _ => simp [enabled, hmaker] at henabled
  | otaServerCreate ok =>
      have hmaker : s.maker = .createOtaServer := of_decide_eq_true henabled
      exact inv_created h (by rw [hmaker]; rfl) (by rw [hmaker]; rfl) rfl rfl
  | buttonCreate ok =>
      have hmaker : s.maker = .createButton := of_decide_eq_true henabled
      exact inv_created h (by rw [hmaker]; rfl) (by rw [hmaker]; rfl) rfl rfl
  | turn ticks t allocated => exact inv_turn h (of_decide_eq_true henabled) ticks t allocated
  | connecting allocated =>
      have hserver : s.server = .connecting := of_decide_eq_true henabled
      refine inv_server h _ _ (by simp [hserver]) (by simp [hserver, ServerPc.stage])
        (by rw [hserver]; rfl) (by simp) ?_ ?_ <;> cases allocated <;>
          simp [Stage.rank, ServerPc.stage]
  | nvsFlashInit ok =>
      have hserver : s.server = .nvsFlashInit := of_decide_eq_true henabled
      exact inv_errorCheck h (by simp [hserver]) (by simp [hserver, ServerPc.stage])
        (by rw [hserver]; rfl) (by simp) ok
  | netifInit ok =>
      have hserver : s.server = .netifInit := of_decide_eq_true henabled
      exact inv_errorCheck h (by simp [hserver]) (by simp [hserver, ServerPc.stage])
        (by rw [hserver]; rfl) (by simp) ok
  | eventLoopCreate ok =>
      have hserver : s.server = .eventLoopCreate := of_decide_eq_true henabled
      exact inv_errorCheck h (by simp [hserver]) (by simp [hserver, ServerPc.stage])
        (by rw [hserver]; rfl) (by simp) ok
  | exampleConnect ok =>
      have hserver : s.server = .exampleConnect := of_decide_eq_true henabled
      exact inv_errorCheck h (by simp [hserver]) (by simp [hserver, ServerPc.stage])
        (by rw [hserver]; rfl) (by simp) ok
  | connected allocated =>
      have hserver : s.server = .connected := of_decide_eq_true henabled
      refine inv_server h _ _ (by simp [hserver]) (by simp [hserver, ServerPc.stage])
        (by rw [hserver]; rfl) (by simp) ?_ ?_ <;> cases allocated <;>
          simp [Stage.rank, ServerPc.stage]
  | showIp ok ip allocated =>
      have hserver : s.server = .showIp := of_decide_eq_true henabled
      cases ok with
      | true =>
          refine inv_server h _ _ (by simp [hserver]) (by simp [hserver, ServerPc.stage])
            (by rw [hserver]; rfl) (by simp) ?_ ?_ <;> cases allocated <;>
              simp [Stage.rank, ServerPc.stage]
      | false => exact inv_aborted h
  | serverTestGroup ok => exact inv_serverTestGroup h (of_decide_eq_true henabled) ok
  | pollSync reset => exact inv_pollSync h (of_decide_eq_true henabled) reset
  | setBits => exact inv_setBits h (of_decide_eq_true henabled)

end Steps

/-- However the tasks interleave, and whatever fails, the start is orderly in every state. -/
theorem startup_orderly (ls : List Label) : Always step Orderly powerOn ls :=
  always_of_invariant (fun _ h => h.orderly) (fun _ _ _ h hstep => inv_step h hstep) inv_powerOn ls

example :
    (run step powerOn [.queueCreate true, .irTxCreate true, .frameMakerCreate true, .bootMsg true,
      .fwVersion true, .initTimeSync true, .tcpServerCreate true, .makerTestGroup, .connecting true,
      .nvsFlashInit true, .netifInit true, .eventLoopCreate true, .exampleConnect true,
      .connected true, .showIp true (some (192, 168, 1, 7)) true, .serverTestGroup true, .pollSync true,
      .pollSync false, .setBits, .waitBits]).map (fun t =>
        (t.server, t.maker, t.offered.map Prod.fst)) =
      some (.listening, .createOtaServer, [.boot, .boot, .connecting, .connected, .address]) := by
  decide +kernel

end InfoGlobe.Startup
