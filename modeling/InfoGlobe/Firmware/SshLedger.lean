import InfoGlobe.Firmware.RunSshTask

/-!
What an activation of `ssh_task` holds at each place. The path without a failure gives everything
back; every failure behind `libssh2_init` ends the task with all it has obtained so far.
-/

namespace InfoGlobe.SshTask
open StepSystem ResourceLedger SshDriver

/-- A call behind `libssh2_init` fails. -/
def Label.failsAfterInit : Label → Bool
  | .gethostbyname found => !found
  | .socket fd => fd < 0
  | .connect rc | .handshake rc | .userauthPassword rc => rc ≠ 0
  | .sessionInit ok => !ok
  | .openSession r => r = .failed
  | .channelExec rc | .channelClose rc => rc ≠ 0 && rc ≠ eagain
  | .channelRead (.error _) => true
  | .exitSignal pointer => pointer ≠ 0 && pointer ≠ 1
  | .start | .libssh2Init _ | .inetAddr _ | .printCommand | .execSshCommand | .malloc _
  | .channelRead (.data _) | .freeBuffer | .setBits _ | .disconnect | .logDone | .vTaskDelete =>
      false

/-- The resources of the task are out of its hands, given back or not. -/
def Pc.ended : Pc → Bool
  | .logDone | .setFail | .setFinish | .deleteTask | .deleted => true
  | _ => false

/-- What the task holds on its way to the answer, the latest first. -/
def holding (s : State) : Finset Resource :=
  match s.pc with
  | .inetAddr | .gethostbyname | .socket => {.libssh2}
  | .connect | .sessionInit => {.socket s.sock, .libssh2}
  | .handshake | .userauth | .printCommand | .execSshCommand | .openSession | .setSuccess
  | .disconnect => {.session, .socket s.sock, .libssh2}
  | .channelExec | .malloc | .channelClose | .exitSignal | .panicked =>
      {.channel, .session, .socket s.sock, .libssh2}
  | .channelRead | .freeBuffer =>
      if s.rxBuff.isSome then {.rxBuff, .channel, .session, .socket s.sock, .libssh2}
      else {.channel, .session, .socket s.sock, .libssh2}
  | .start | .libssh2Init | .logDone | .setFail | .setFinish | .deleteTask | .deleted => ∅

structure Balanced (s : State) : Prop where
  disciplined : Disciplined s.ledger
  holds : s.pc.ended = false → held s.ledger = holding s
  fits : ∀ reading ∈ s.rxBuff, reading.Fits bufferSize

theorem balanced_start (command : List UInt8) : Balanced (start command) := by
  refine ⟨disciplined_nil, fun _ => rfl, ?_⟩
  intro reading h
  exact absurd h (by simp [start])

theorem ledger_effect (s : State) (l : Label) :
    (effect s l).ledger = s.ledger ++ ledgerOf (outcome s l).2 := by
  simp [State.ledger, effect, ledgerOf]

@[simp] theorem ledgerOf_nil : ledgerOf [] = [] := rfl

@[simp] theorem ledgerOf_cons (c : Call) (calls : List Call) :
    ledgerOf (c :: calls) = c.events ++ ledgerOf calls := rfl

theorem fits_nextRxBuff {s : State} (h : ∀ reading ∈ s.rxBuff, reading.Fits bufferSize)
    (l : Label) : ∀ reading ∈ nextRxBuff s l, reading.Fits bufferSize := by
  intro reading hr
  cases l with
  | malloc block =>
      obtain ⟨m, _, rfl⟩ := Option.map_eq_some_iff.mp hr
      exact Reading.fits_initial (by decide) m
  | channelRead r =>
      obtain ⟨old, hold, rfl⟩ := Option.map_eq_some_iff.mp hr
      have hfits := h old hold
      cases hturn : readTurn bufferSize old r with
      | again t => exact fits_of_again hfits hturn
      | «return» m n => exact ⟨hfits.counted, hfits.nonneg, hfits.room⟩
  | _ => exact h reading hr

@[simp] theorem events_acquired (r : Resource) : (acquired r).events = [.acquired r] := rfl

@[simp] theorem events_used (r : Resource) : (used r).events = [.used r] := rfl

@[simp] theorem events_released (r : Resource) : (released r).events = [.released r] := rfl

@[simp] theorem events_readParameters : Call.readParameters.events = [] := rfl

@[simp] theorem events_exec (command : List UInt8) : (Call.exec command).events = [] := rfl

@[simp] theorem events_setBits (bit : TaskBit) : (Call.setBits bit).events = [] := rfl

theorem ended_effect {s : State} {l : Label} (hpc : s.pc = l.pc) (hended : s.pc.ended = true) :
    (effect s l).pc.ended = true ∧ (effect s l).ledger = s.ledger ∧ l.failsAfterInit = false := by
  rw [hpc] at hended
  cases l with
  | setBits bit =>
      cases bit with
      | cmdSuccess => exact absurd hended (by decide)
      | fail | finish => exact ⟨rfl, by simp [ledger_effect, outcome], rfl⟩
  | logDone | vTaskDelete => exact ⟨rfl, by simp [ledger_effect, outcome], rfl⟩
  | _ => exact absurd hended (by simp [Label.pc, Pc.ended])

section Fates
variable {s : State}
attribute [local simp] holding Label.pc Label.failsAfterInit outcome effect nextSock nextRxBuff enter
  Pc.ended PermittedFrom

/-- How a step leaves what is held: a failing call ends the task with all of it, a failing
`libssh2_init` and `disconnect_and_cleanup` end it with nothing, any other call leads on. -/
inductive Fate (s : State) (l : Label) : Prop
  | fails (hfails : l.failsAfterInit = true) (hgoes : (outcome s l).1.ended = true)
      (hkept : (ledgerOf (outcome s l).2).foldl enter (holding s) = holding s)
      (hlibrary : .libssh2 ∈ holding s)
  | clean (hholds : l.failsAfterInit = false) (hgoes : (outcome s l).1.ended = true)
      (hnone : (ledgerOf (outcome s l).2).foldl enter (holding s) = ∅)
  | on (hholds : l.failsAfterInit = false) (hgoes : (outcome s l).1.ended = false)
      (hleads : (ledgerOf (outcome s l).2).foldl enter (holding s) = holding (effect s l))

theorem fate_channelRead (r : ReadResult) (hpc : s.pc = .channelRead)
    (hfits : ∀ reading ∈ s.rxBuff, reading.Fits bufferSize) : Fate s (.channelRead r) := by
  cases hbuff : s.rxBuff with
  | none =>
      cases r with
      | error rc => refine .fails ?_ ?_ ?_ ?_ <;> simp [hpc, hbuff, afterRead]
      | data bytes => refine .on ?_ ?_ ?_ <;> simp [hpc, hbuff, afterRead]
  | some reading =>
      cases hturn : readTurn bufferSize reading r with
      | again t =>
          cases r with
          | error rc => exact absurd hturn (by simp [readTurn])
          | data bytes => refine .on ?_ ?_ ?_ <;> simp [hpc, hbuff, hturn, afterRead]
      | «return» m n =>
          have hneg := return_neg_iff (hfits reading hbuff) hturn
          cases r with
          | error rc =>
              have hn : n < 0 := hneg.mpr ⟨rc, rfl⟩
              refine .fails ?_ ?_ ?_ ?_ <;> simp [hpc, hbuff, hturn, hn, afterRead]
          | data bytes =>
              have hn : ¬n < 0 := by simp [hneg]
              refine .on ?_ ?_ ?_ <;> simp [hpc, hbuff, hturn, hn, afterRead]

theorem fate_outcome {l : Label} (hpc : s.pc = l.pc) (h : Balanced s)
    (hended : s.pc.ended = false) : Fate s l := by
  cases l with
  | channelRead r => exact fate_channelRead r hpc h.fits
  | libssh2Init rc =>
      by_cases hrc : rc = 0
      · refine .on ?_ ?_ ?_ <;> simp [hpc, hrc]
      · refine .clean ?_ ?_ ?_ <;> simp [hpc, hrc]
  | connect rc | handshake rc | userauthPassword rc =>
      by_cases hrc : rc = 0
      · refine .on ?_ ?_ ?_ <;> simp [hpc, hrc]
      · refine .fails ?_ ?_ ?_ ?_ <;> simp [hpc, hrc]
  | socket fd =>
      by_cases hfd : fd < 0
      · refine .fails ?_ ?_ ?_ ?_ <;> simp [hpc, hfd]
      · refine .on ?_ ?_ ?_ <;> simp [hpc, hfd]
  | channelExec rc | channelClose rc =>
      have hzero : (0 : Int) ≠ eagain := by decide
      by_cases hagain : rc = eagain
      · refine .on ?_ ?_ ?_ <;> simp [hpc, hagain]
      · by_cases hrc : rc = 0
        · refine .on ?_ ?_ ?_ <;> simp [hpc, hrc, hzero]
        · refine .fails ?_ ?_ ?_ ?_ <;> simp [hpc, hagain, hrc]
  | gethostbyname answer | sessionInit answer =>
      cases answer with
      | false => refine .fails ?_ ?_ ?_ ?_ <;> simp [hpc]
      | true => refine .on ?_ ?_ ?_ <;> simp [hpc]
  | openSession r =>
      cases r with
      | failed => refine .fails ?_ ?_ ?_ ?_ <;> simp [hpc]
      | channel | eagain => refine .on ?_ ?_ ?_ <;> simp [hpc]
  | exitSignal pointer =>
      by_cases hok : pointer = 0 ∨ pointer = 1
      · refine .on ?_ ?_ ?_
        · rcases hok with rfl | rfl <;> rfl
        · simp [hok]
        · simp [hpc, hok]
      · obtain ⟨hzero, hone⟩ := not_or.mp hok
        refine .fails ?_ ?_ ?_ ?_ <;> simp [hpc, hzero, hone]
  | inetAddr answer => cases answer <;> refine .on ?_ ?_ ?_ <;> simp [hpc]
  | malloc block => cases block <;> refine .on ?_ ?_ ?_ <;> simp [hpc]
  | freeBuffer => cases hbuff : s.rxBuff <;> refine .on ?_ ?_ ?_ <;> simp [hpc, hbuff]
  | disconnect =>
      have hfree : .channel ∉ held s.ledger := by simp [h.holds hended, hpc]
      refine .clean ?_ ?_ ?_ <;> simp [hpc, disconnectAndCleanup, sessionFree, hfree]
  | setBits bit =>
      cases bit with
      | cmdSuccess => refine .on ?_ ?_ ?_ <;> simp [hpc]
      | fail | finish => exact absurd hended (by simp [hpc])
  | logDone | vTaskDelete => exact absurd hended (by simp [hpc])
  | start | printCommand | execSshCommand => refine .on ?_ ?_ ?_ <;> simp [hpc]

/-- Whatever a step uses or releases is held, and whatever it acquires is not. -/
theorem permitted_outcome {l : Label} (hpc : s.pc = l.pc) (h : Balanced s)
    (hended : s.pc.ended = false) : PermittedFrom (holding s) (ledgerOf (outcome s l).2) := by
  cases l with
  | channelRead r =>
      cases hbuff : s.rxBuff with
      | none => cases r <;> simp [hpc, hbuff, afterRead]
      | some reading =>
          cases hturn : readTurn bufferSize reading r <;> simp [hpc, hbuff, hturn, afterRead]
  | libssh2Init rc =>
      by_cases hrc : rc = 0 <;> simp [hpc, hrc]
  | socket fd =>
      by_cases hfd : fd < 0 <;> simp [hpc, hfd]
  | sessionInit answer => cases answer <;> simp [hpc]
  | openSession r => cases r <;> simp [hpc]
  | malloc block => cases block <;> simp [hpc]
  | freeBuffer => cases hbuff : s.rxBuff <;> simp [hpc, hbuff]
  | exitSignal pointer =>
      by_cases hok : pointer = 0 ∨ pointer = 1 <;> simp [hpc, hok]
  | disconnect =>
      have hfree : .channel ∉ held s.ledger := by simp [h.holds hended, hpc]
      simp [hpc, disconnectAndCleanup, sessionFree, hfree]
  | setBits bit => cases bit <;> simp
  | _ => simp [hpc]

end Fates

theorem balanced_effect {s : State} {l : Label} (h : Balanced s) (hpc : s.pc = l.pc) :
    Balanced (effect s l) := by
  have hledger := ledger_effect s l
  by_cases hended : s.pc.ended = false
  · have hheld := h.holds hended
    refine ⟨?_, ?_, fits_nextRxBuff h.fits l⟩
    · rw [hledger, disciplined_append, hheld]
      exact ⟨h.disciplined, permitted_outcome hpc h hended⟩
    · intro hgoes
      rw [hledger, held_append, hheld]
      cases fate_outcome hpc h hended with
      | fails _ hgone | clean _ hgone => exact absurd hgone (Bool.eq_false_iff.mp hgoes)
      | on _ _ hleads => exact hleads
  · obtain ⟨hstays, hsame, _⟩ := ended_effect hpc (by simpa using hended)
    refine ⟨hsame ▸ h.disciplined, ?_, fits_nextRxBuff h.fits l⟩
    intro hgoes
    rw [hstays] at hgoes
    exact absurd hgoes (by decide)

theorem balanced_step (s : State) (l : Label) (t : State) (h : Balanced s)
    (hstep : step s l = some t) : Balanced t := by
  obtain ⟨⟨hpc, _⟩, rfl⟩ := step_eq_some.mp hstep
  exact balanced_effect h hpc

theorem held_final (s : State) (l : Label) (t : State) (_ : Balanced s)
    (hended : s.pc.ended = true) (hstep : step s l = some t) :
    t.pc.ended = true ∧ (held t.ledger ≠ ∅ ↔ held s.ledger ≠ ∅) ∧ ¬l.failsAfterInit = true := by
  obtain ⟨⟨hpc, _⟩, rfl⟩ := step_eq_some.mp hstep
  obtain ⟨hstays, hsame, hholds⟩ := ended_effect hpc hended
  exact ⟨hstays, by rw [hsame], by simp [hholds]⟩

theorem held_earned (s : State) (l : Label) (t : State) (h : Balanced s)
    (hrunning : ¬s.pc.ended = true) (hstep : step s l = some t) :
    (l.failsAfterInit = true → t.pc.ended = true ∧ held t.ledger ≠ ∅) ∧
      (¬l.failsAfterInit = true → t.pc.ended = true → ¬held t.ledger ≠ ∅) := by
  obtain ⟨⟨hpc, _⟩, rfl⟩ := step_eq_some.mp hstep
  have hended : s.pc.ended = false := by simpa using hrunning
  rw [ledger_effect, held_append, h.holds hended]
  cases fate_outcome hpc h hended with
  | fails hfails hgoes hkept hlibrary =>
      refine ⟨fun _ => ⟨hgoes, ?_⟩, fun hholds => absurd hfails hholds⟩
      rw [hkept]
      exact Finset.ne_empty_of_mem hlibrary
  | clean hholds hgoes hnone => simp [hholds, hnone]
  | on hholds hgoes hleads => simp [hholds, effect, hgoes]

/-- What is held when the task has come to an end is what a failing call has left behind. -/
theorem still_holds_iff {command : List UInt8} {ls : List Label} {t : State}
    (hr : run step (start command) ls = some t) (ht : t.pc.ended = true) :
    held t.ledger ≠ ∅ ↔ SomeStep step (fun _ l => l.failsAfterInit = true) (start command) ls :=
  verdict_iff_someStep_of_invariant balanced_step held_final held_earned
    (balanced_start command) (by simp [start, Pc.ended]) hr ht

end InfoGlobe.SshTask

namespace InfoGlobe.RunSshTask
open StepSystem ResourceLedger SshTask

/-! ### The tasks of a run -/

def Label.forTask (k : Nat) : Label → Option SshTask.Label
  | .caller _ => none
  | .task j l => if j = k then some l else none

def taskLabels (k : Nat) (ls : List Label) : List SshTask.Label := ls.filterMap (Label.forTask k)

theorem mem_taskLabels {k : Nat} {l : SshTask.Label} {ls : List Label} :
    l ∈ taskLabels k ls ↔ .task k l ∈ ls := by
  simp only [taskLabels, List.mem_filterMap]
  constructor
  · rintro ⟨m, hm, hl⟩
    cases m with
    | caller _ => exact absurd hl (by simp [Label.forTask])
    | task j m =>
        simp only [Label.forTask, Option.ite_none_right_eq_some, Option.some.injEq] at hl
        obtain ⟨rfl, rfl⟩ := hl
        exact hm
  · intro h
    exact ⟨.task k l, h, by simp [Label.forTask]⟩

/-- The task of a call has run by itself, from its start, on its own labels. -/
structure Projects (p : Press) (ls : List SshTask.Label) : Prop where
  none : p.task = none → ls = []
  some : ∀ t ∈ p.task, ∃ command, run SshTask.step (SshTask.start command) ls = some t

theorem projects_callerStep {p q : Press} {l : CallerLabel} {ls : List SshTask.Label}
    (hsound : p.Sound) (h : Projects p ls) (hstep : callerStep p l = some q) : Projects q ls := by
  obtain ⟨htask, _⟩ | ⟨ok, rfl⟩ := keeps_task_or_xTaskCreate hstep
  · exact ⟨fun hq => h.none (htask ▸ hq), fun t ht => h.some t (htask ▸ ht)⟩
  · obtain ⟨hcaller, rfl⟩ := callerStep_xTaskCreate hstep
    simp only [Press.Sound, hcaller] at hsound
    obtain rfl : ls = [] := h.none hsound.1
    cases ok with
    | false => exact ⟨fun _ => rfl, fun t ht => absurd ht (Option.some_ne_none t).symm⟩
    | true =>
        refine ⟨fun _ => rfl, fun t ht => ⟨p.command, ?_⟩⟩
        exact congrArg some (Option.some.inj ht)

theorem projects_taskStep {p q : Press} {l : SshTask.Label} {ls : List SshTask.Label}
    (h : Projects p ls) (hstep : taskStep p l = some q) : Projects q (ls ++ [l]) := by
  obtain ⟨t, u, ht, hu, rfl⟩ := taskStep_eq_some.mp hstep
  obtain ⟨command, hrun⟩ := h.some t ht
  refine ⟨fun hnone => absurd hnone (Option.some_ne_none u), ?_⟩
  rintro v hv
  obtain rfl : u = v := Option.some.inj hv
  exact ⟨command, run_append_singleton_eq_some.mpr ⟨t, hrun, hu⟩⟩

theorem projects_of_run {ls : List Label} {s : State} (h : run step start ls = some s) :
    ∀ k, (s.press k).Sound ∧ Projects (s.press k) (taskLabels k ls) := by
  induction ls using List.reverseRecOn generalizing s with
  | nil =>
      obtain rfl : start = s := Option.some.inj h
      exact fun k => ⟨sound_idle, fun _ => rfl, fun t ht => absurd ht (by simp [start, Press.idle])⟩
  | append_singleton ls l ih =>
      obtain ⟨r, hr, hstep⟩ := run_append_singleton_eq_some.mp h
      have hprev := ih hr
      intro k
      refine ⟨sound_step r l s (fun k => (hprev k).1) hstep k, ?_⟩
      have hk := (hprev k).2
      cases l with
      | caller l =>
          have hsame : taskLabels k (ls ++ [.caller l]) = taskLabels k ls := by
            simp [taskLabels, Label.forTask]
          obtain ⟨_, q, hq, hpress, _⟩ := step_caller hstep
          rw [hsame, hpress, Function.update_apply]
          by_cases heq : k = r.current
          · subst heq
            rw [if_pos rfl]
            exact projects_callerStep (hprev _).1 hk hq
          · rw [if_neg heq]
            exact hk
      | task j l =>
          obtain ⟨_, q, hq, hpress, _⟩ := step_task hstep
          rw [hpress, Function.update_apply]
          by_cases heq : k = j
          · subst heq
            rw [if_pos rfl]
            have hadd : taskLabels k (ls ++ [.task k l]) = taskLabels k ls ++ [l] := by
              simp [taskLabels, Label.forTask]
            rw [hadd]
            exact projects_taskStep hk hq
          · rw [if_neg heq]
            have hsame : taskLabels k (ls ++ [.task j l]) = taskLabels k ls := by
              simp [taskLabels, Label.forTask, Ne.symm heq]
            rw [hsame]
            exact hk

/-- Every resource has been released exactly as often as it was obtained, and only when it was
held. -/
structure SettledOnExit (t : SshTask.State) : Prop where
  disciplined : Disciplined t.ledger
  settled : ∀ r, Settled t.ledger r

theorem settledOnExit_iff {t : SshTask.State} (h : Disciplined t.ledger) :
    SettledOnExit t ↔ held t.ledger = ∅ := by
  constructor
  · intro hsettled
    rw [Finset.eq_empty_iff_forall_notMem]
    exact fun r => (settled_iff_not_held h r).mp (hsettled.settled r)
  · intro hempty
    refine ⟨h, fun r => (settled_iff_not_held h r).mpr ?_⟩
    rw [hempty]
    exact Finset.notMem_empty r

/-- A task that has ended has given everything back exactly when no call failed behind
`libssh2_init`. -/
theorem ssh_resources_settled_iff {ls : List Label} {s : State} (hrun : run step start ls = some s)
    {k : Nat} {t : SshTask.State} (ht : (s.press k).task = some t) (hend : t.pc = .deleted) :
    SettledOnExit t ↔ ∀ l, .task k l ∈ ls → l.failsAfterInit = false := by
  obtain ⟨command, htask⟩ := (projects_of_run hrun k).2.some t ht
  have hbalanced : Balanced t :=
    (always_of_invariant (fun _ h => h) balanced_step (balanced_start command) _).last htask
  have hholds := still_holds_iff htask (by rw [hend]; rfl)
  rw [someStep_iff_exists_mem htask] at hholds
  calc SettledOnExit t ↔ held t.ledger = ∅ := settledOnExit_iff hbalanced.disciplined
    _ ↔ ¬∃ l ∈ taskLabels k ls, l.failsAfterInit = true := by rw [← hholds, not_not]
    _ ↔ ∀ l, .task k l ∈ ls → l.failsAfterInit = false := by
      simp only [not_exists, not_and, mem_taskLabels, Bool.not_eq_true]

/-- One call whose task makes these steps as soon as it has been created. -/
def pressOf (ls : List SshTask.Label) : List Label :=
  [.caller (.call [0x6c, 0x73]), .caller (.xEventGroupCreate true), .caller (.xTaskCreate true)] ++
    ls.map (.task 0)

def answered : List SshTask.Label :=
  [.start, .libssh2Init 0, .inetAddr true, .socket 54, .connect 0, .sessionInit true, .handshake 0,
    .userauthPassword 0, .printCommand, .execSshCommand, .openSession .channel, .channelExec 0,
    .malloc (some fun _ => 0), .channelRead (.data [0x61]), .channelRead (.data []), .freeBuffer,
    .channelClose 0, .exitSignal 0, .setBits .cmdSuccess, .disconnect, .logDone, .setBits .finish,
    .vTaskDelete]

theorem answered_command_settled :
    ∃ s t, run step start (pressOf answered) = some s ∧ (s.press 0).task = some t ∧
      SettledOnExit t := by
  refine ⟨_, _, rfl, rfl, ?_⟩
  have hrun : run step start (pressOf answered) = some _ := rfl
  refine (ssh_resources_settled_iff (k := 0) hrun rfl rfl).mpr ?_
  simp [pressOf, answered, SshTask.Label.failsAfterInit]

/-- The host refuses the connection: the reference to the library and the socket stay behind. -/
def refused : List SshTask.Label :=
  [.start, .libssh2Init 0, .inetAddr true, .socket 54, .connect (-1), .setBits .fail,
    .setBits .finish, .vTaskDelete]

theorem refused_connection_leaks :
    ∃ s t, run step start (pressOf refused) = some s ∧ (s.press 0).task = some t ∧
      t.pc = .deleted ∧ ¬SettledOnExit t := by
  refine ⟨_, _, rfl, rfl, rfl, fun h => ?_⟩
  exact absurd (h.settled (.socket 54)) (by decide)

end InfoGlobe.RunSshTask
