import InfoGlobe.Firmware.SshHandshake
import InfoGlobe.System.RemoteCommand
import Mathlib.Algebra.BigOperators.Group.Finset.Basic

/-!
Every press ends. A press takes a bounded number of steps, retries apart, and the button task and
the task it waits for are never both stuck; so the port hears its client again as long as the remote
host does not keep the task busy for ever.
-/

namespace InfoGlobe.RemoteCommand
open StepSystem RunSshTask

/-! ### The steps that are left -/

def taskRank : SshTask.Pc → Nat
  | .start => 23
  | .libssh2Init => 22
  | .inetAddr => 21
  | .gethostbyname => 20
  | .socket => 19
  | .connect => 18
  | .sessionInit => 17
  | .handshake => 16
  | .userauth => 15
  | .printCommand => 14
  | .execSshCommand => 13
  | .openSession => 12
  | .channelExec => 11
  | .malloc => 10
  | .channelRead => 9
  | .freeBuffer => 8
  | .channelClose => 7
  | .exitSignal => 6
  | .setSuccess => 5
  | .disconnect => 4
  | .logDone => 3
  | .setFail => 3
  | .setFinish => 2
  | .deleteTask => 1
  | .deleted | .panicked => 0

/-- The task is still to be created up to `createTask`. -/
def callerRank : Caller → Nat
  | .idle | .returned _ | .aborted => 0
  | .createGroup => 29
  | .createTask => 28
  | .waitBits => 4
  | .getBits => 3
  | .deleteInput _ => 2
  | .leave _ => 1

def pressRank (p : Press) : Nat := callerRank p.caller + p.task.elim 0 fun t => taskRank t.pc

def pcRank : Pc → Nat
  | .recv => 0
  | .send => 1
  | .blocked => 2

/-- Earlier tasks may still have to delete themselves. -/
def rank (s : State) : Nat :=
  ∑ k ∈ Finset.range (s.presses.current + 1), pressRank (s.presses.press k) + pcRank s.pc

/-- The call is made again, or there is more to read. -/
def retries : SshTask.Label → Bool
  | .openSession .eagain => true
  | .channelExec rc | .channelClose rc => rc = SshDriver.eagain
  | .channelRead (.data (_ :: _)) => true
  | _ => false

/-- What a label adds to the steps that are left, its own step included. -/
def allowance : Label → Nat
  | .accept _ | .recv _ => 32
  | .task _ l => if retries l then 1 else 0
  | .caller _ | .send => 0

/-- The port is on its way back to `recv`, by a step that is not a retry. -/
def NotStuck (s : State) : Prop :=
  s.presses.halted = false → s.pc ≠ .recv → ∃ l t, step s l = some t ∧ allowance l = 0

theorem taskRank_of_step {t u : SshTask.State} {l : SshTask.Label}
    (h : SshTask.step t l = some u) :
    taskRank u.pc + 1 ≤ taskRank t.pc + if retries l then 1 else 0 := by
  obtain ⟨⟨hpc, _⟩, rfl⟩ := SshTask.step_eq_some.mp h
  rw [hpc]
  cases l with
  | start | printCommand | execSshCommand | freeBuffer | disconnect | logDone | vTaskDelete =>
      simp [SshTask.effect, SshTask.outcome, SshTask.Label.pc, taskRank]
  | setBits bit => cases bit <;> simp [SshTask.effect, SshTask.outcome, SshTask.Label.pc, taskRank]
  | openSession r =>
      cases r <;> simp [SshTask.effect, SshTask.outcome, SshTask.Label.pc, taskRank, retries]
  | malloc block =>
      cases block <;> simp [SshTask.effect, SshTask.outcome, SshTask.Label.pc, taskRank]
  | inetAddr _ | gethostbyname _ | sessionInit _ | libssh2Init _ | connect _ | handshake _
  | userauthPassword _ | socket _ | exitSignal _ =>
      simp only [SshTask.effect, SshTask.outcome, SshTask.Label.pc]
      split <;> simp only [taskRank] <;> omega
  | channelExec rc | channelClose rc =>
      simp only [SshTask.effect, SshTask.outcome, SshTask.Label.pc, retries, decide_eq_true_eq]
      split
      · simp
      · split <;> simp [taskRank]
  | channelRead r =>
      simp only [SshTask.effect, SshTask.outcome, SshTask.Label.pc, SshTask.afterRead]
      cases t.rxBuff with
      | none => cases r <;> simp only [taskRank] <;> omega
      | some reading =>
          cases r with
          | error rc =>
              simp [SshDriver.readTurn, taskRank]
              omega
          | data bytes =>
              cases bytes with
              | cons b bytes => simp [SshDriver.readTurn, retries, taskRank]
              | nil =>
                  simp only [SshDriver.readTurn]
                  split <;> simp only [taskRank] <;> omega

theorem pressRank_of_taskStep {p q : Press} {l : SshTask.Label} (h : taskStep p l = some q) :
    pressRank q + 1 ≤ pressRank p + if retries l then 1 else 0 := by
  obtain ⟨t, u, ht, hu, rfl⟩ := taskStep_eq_some.mp h
  have hrank := taskRank_of_step hu
  simp only [pressRank, ht, Option.elim_some]
  omega

theorem pressRank_of_callerStep {p q : Press} {l : CallerLabel} (hsound : p.Sound)
    (h : callerStep p l = some q) (hidle : p.caller ≠ .idle) : pressRank q + 1 ≤ pressRank p := by
  unfold Press.Sound at hsound
  cases callerMove_of_step h with
  | call command hat => exact absurd hat hidle
  | task ok hat =>
      simp only [hat] at hsound
      cases ok <;> simp [pressRank, hat, hsound.1, callerRank, SshTask.start, taskRank]
  | groupCreated hat | groupFailed hat | woken _ hat _ _ | told _ hat _ | groupDeleted _ hat
  | left _ hat =>
      simp only [pressRank, hat, callerRank]
      omega

theorem sum_pressRank_update {n k : Nat} (hk : k < n) (f : Nat → Press) (p : Press) :
    ∑ j ∈ Finset.range n, pressRank (Function.update f k p j) + pressRank (f k) =
      ∑ j ∈ Finset.range n, pressRank (f j) + pressRank p := by
  have hmem : k ∈ Finset.range n := Finset.mem_range.mpr hk
  have hothers : ∑ j ∈ (Finset.range n).erase k, pressRank (Function.update f k p j) =
      ∑ j ∈ (Finset.range n).erase k, pressRank (f j) := by
    refine Finset.sum_congr rfl fun j hj => ?_
    rw [Function.update_of_ne (Finset.ne_of_mem_erase hj)]
  rw [← Finset.add_sum_erase _ _ hmem, ← Finset.add_sum_erase _ (fun j => pressRank (f j)) hmem,
    hothers, Function.update_self]
  omega

section Bound
variable {s : State}

theorem task_none_of_ahead (h : Inv s) {k : Nat} (hk : s.presses.current < k) :
    (s.presses.press k).task = none := by
  have hsound := h.sound k
  simp only [Press.Sound, h.ahead k hk] at hsound
  exact hsound.1

theorem pressRank_idle {p : Press} (hsound : p.Sound) (hidle : p.caller = .idle) :
    pressRank p = 0 := by
  simp only [Press.Sound, hidle] at hsound
  simp [pressRank, hidle, hsound.1, callerRank]

/-- Each step is paid for by what is left, or by the allowance of its label. -/
theorem rank_of_step {t : State} {l : Label} (h : Inv s) (hstep : step s l = some t) :
    rank t + 1 ≤ rank s + allowance l := by
  have hcurrent : s.presses.current < s.presses.current + 1 := Nat.lt_succ_self _
  cases move_of_step hstep with
  | handled port pc hat hnext hl hport hcommands =>
      have hpc : pcRank pc ≤ 1 := by cases pc <;> simp [pcRank] at hnext ⊢
      have hallowance : allowance l = 32 := by cases l <;> first | rfl | simp [Label.port?] at hl
      have hrecv : pcRank .recv = 0 := rfl
      simp only [rank, hallowance, hat]
      omega
  | pressed bytes port idx p hat hport hmemory hcommands hcall =>
      have hidle := h.idle.mp (by simp [hat])
      have hzero := pressRank_idle (h.sound _) hidle
      have hnew : pressRank p = 29 := by
        have hsound := h.sound s.presses.current
        simp only [Press.Sound, hidle] at hsound
        cases callerMove_of_step hcall with
        | call command _ => simp [pressRank, callerRank, hsound.1]
      have hsum := sum_pressRank_update hcurrent s.presses.press p
      simp only [rank, allowance, hat, pcRank]
      omega
  | caller l p hat hcaller =>
      have hlower := pressRank_of_callerStep (h.sound _) hcaller fun hidle => h.idle.mpr hidle hat
      have hsum := sum_pressRank_update hcurrent s.presses.press p
      by_cases hl : l = .leave
      · subst hl
        have hnext : Function.update s.presses.press s.presses.current p (s.presses.current + 1) =
            s.presses.press (s.presses.current + 1) := Function.update_of_ne (by omega) _ _
        have hzero := pressRank_idle (h.sound (s.presses.current + 1)) (h.ahead _ hcurrent)
        simp only [rank, RunSshTask.State.next, Finset.sum_range_succ _ (s.presses.current + 1),
          hnext, hzero, allowance, hat, if_true, pcRank]
        omega
      · have hnext : s.presses.next l = s.presses.current := by
          cases l <;> first | rfl | exact absurd rfl hl
        simp only [rank, hnext, allowance, hat, if_neg hl]
        omega
  | task k l p htask =>
      have hk : k < s.presses.current + 1 := by
        by_contra hahead
        obtain ⟨t, _, ht, _⟩ := taskStep_eq_some.mp htask
        rw [task_none_of_ahead h (by omega)] at ht
        exact absurd ht (by simp)
      have hlower := pressRank_of_taskStep htask
      have hsum := sum_pressRank_update hk s.presses.press p
      simp only [rank, allowance]
      omega
  | send hat =>
      simp only [rank, hat, allowance, pcRank]
      omega

end Bound

/-! ### Somebody can go on -/

/-- A label that takes the task on from its place without a retry. -/
def onward : SshTask.Pc → SshTask.Label
  | .start => .start
  | .libssh2Init => .libssh2Init 0
  | .inetAddr => .inetAddr true
  | .gethostbyname => .gethostbyname true
  | .socket => .socket 0
  | .connect => .connect 0
  | .sessionInit => .sessionInit true
  | .handshake => .handshake 0
  | .userauth => .userauthPassword 0
  | .printCommand => .printCommand
  | .execSshCommand => .execSshCommand
  | .openSession => .openSession .channel
  | .channelExec => .channelExec 0
  | .malloc => .malloc none
  | .channelRead => .channelRead (.error (-1))
  | .freeBuffer => .freeBuffer
  | .channelClose => .channelClose 0
  | .exitSignal => .exitSignal 0
  | .setSuccess => .setBits .cmdSuccess
  | .disconnect => .disconnect
  | .logDone => .logDone
  | .setFail => .setBits .fail
  | .setFinish => .setBits .finish
  | .deleteTask | .deleted | .panicked => .vTaskDelete

theorem onward_spec {pc : SshTask.Pc} (hdeleted : pc ≠ .deleted) (hpanicked : pc ≠ .panicked) :
    pc = (onward pc).pc ∧ (onward pc).Possible ∧ retries (onward pc) = false := by
  cases pc with
  | deleted => exact absurd rfl hdeleted
  | panicked => exact absurd rfl hpanicked
  | channelRead => exact ⟨rfl, by decide, rfl⟩
  | _ => exact ⟨rfl, trivial, rfl⟩

/-- `xTaskCreate` has found the memory for its task. -/
def Created : Label → Prop
  | .caller l => TaskCreated (.caller l)
  | .accept _ | .recv _ | .task _ _ | .send => True

structure Live (s : State) : Prop where
  inv : Inv s
  staffed : ∀ k, (s.presses.press k).Staffed
  fatal : s.presses.halted = false → ∀ k, (s.presses.press k).fatal = false

theorem live_start (memory : Nat → UInt8) : Live (start memory) := by
  refine ⟨inv_start memory, fun k => ⟨sound_idle, fun hwaits => ?_⟩, fun _ _ => rfl⟩
  exact absurd hwaits (by simp [start, RunSshTask.start, Press.idle])

section Going
variable {s : State}

theorem running_of_step {t : State} {l : Label} (h : step s l = some t) :
    s.presses.halted = false := by
  unfold step at h
  split at h
  · exact absurd h (by simp)
  · simpa using ‹¬s.presses.halted = true›

/-- Only one press changes, and the device halts on its account. -/
theorem fatal_update (h : ∀ k, (s.presses.press k).fatal = false) {j : Nat} {p : Press}
    (hp : p.fatal = false) (k : Nat) : (Function.update s.presses.press j p k).fatal = false := by
  rw [Function.update_apply]
  split
  · exact hp
  · exact h k

theorem staffed_update (h : ∀ k, (s.presses.press k).Staffed) {j : Nat} {p : Press}
    (hp : p.Staffed) (k : Nat) : (Function.update s.presses.press j p k).Staffed := by
  rw [Function.update_apply]
  split
  · exact hp
  · exact h k

theorem live_step (s : State) (l : Label) (t : State) (h : Live s) (hcreated : Created l)
    (hstep : step s l = some t) : Live t := by
  have hfatal := h.fatal (running_of_step hstep)
  refine ⟨inv_step h.inv hstep, ?_, ?_⟩
  · cases move_of_step hstep with
    | handled port pc hat hnext hl hport hcommands => exact h.staffed
    | pressed bytes port idx p hat hport hmemory hcommands hcall =>
        have hcalled : TaskCreated (.caller (.call (rowText s.port.memory idx))) := trivial
        exact staffed_update h.staffed (staffed_callerStep (h.staffed _) hcalled hcall)
    | caller l p hat hcaller =>
        exact staffed_update h.staffed (staffed_callerStep (h.staffed _) hcreated hcaller)
    | task k l p htask =>
        exact staffed_update h.staffed (staffed_taskStep _ l p (h.staffed k) htask)
    | send hat => exact h.staffed
  · cases move_of_step hstep with
    | handled port pc hat hnext hl hport hcommands => exact h.fatal
    | pressed bytes port idx p hat hport hmemory hcommands hcall => exact fatal_update hfatal
    | caller l p hat hcaller => exact fatal_update hfatal
    | task k l p htask => exact fatal_update hfatal
    | send hat => exact h.fatal

theorem step_of_callerStep (hrunning : s.presses.halted = false) (hat : s.pc = .blocked)
    {l : CallerLabel} (h : (callerStep (s.presses.press s.presses.current) l).isSome = true) :
    ∃ t, step s (.caller l) = some t := by
  obtain ⟨p, hp⟩ := Option.isSome_iff_exists.mp h
  simp [step, hrunning, hat, RunSshTask.step, hp]

theorem step_of_taskStep (hrunning : s.presses.halted = false) {k : Nat} {l : SshTask.Label}
    {p : Press} (h : taskStep (s.presses.press k) l = some p) : ∃ t, step s (.task k l) = some t := by
  cases hat : s.pc <;> simp [step, hrunning, hat, RunSshTask.step, h]

/-- The caller goes on by itself, except at its wait. -/
theorem callerStep_of_sound {p : Press} (hsound : p.Sound) (hfatal : p.fatal = false)
    (hidle : p.caller ≠ .idle) (hreturned : ∀ ret, p.caller ≠ .returned ret)
    (hwaits : p.caller ≠ .waitBits) : ∃ l, (callerStep p l).isSome = true := by
  unfold Press.Sound at hsound
  cases hcaller : p.caller with
  | idle => exact absurd hcaller hidle
  | returned ret => exact absurd hcaller (hreturned ret)
  | waitBits => exact absurd hcaller hwaits
  | aborted => simp [Press.fatal, hcaller] at hfatal
  | createGroup => exact ⟨.xEventGroupCreate true, by simp [callerStep, hcaller]⟩
  | createTask => exact ⟨.xTaskCreate true, by simp [callerStep, hcaller]⟩
  | getBits =>
      simp only [hcaller] at hsound
      obtain ⟨t, _, _, hbits⟩ := hsound
      exact ⟨.xEventGroupGetBits, by simp [callerStep, hcaller, hbits]⟩
  | deleteInput ret => exact ⟨.vEventGroupDelete, by simp [callerStep, hcaller]⟩
  | leave ret => exact ⟨.leave, by simp [callerStep, hcaller]⟩

theorem notStuck_of_live (h : Live s) : NotStuck s := by
  intro hrunning hpc
  cases hat : s.pc with
  | recv => exact absurd hat hpc
  | send => exact ⟨.send, { s with pc := .recv }, by simp [step, hrunning, hat], rfl⟩
  | blocked =>
      have hidle : (s.presses.press s.presses.current).caller ≠ .idle :=
        fun hidle => h.inv.idle.mpr hidle hat
      have hfatal := h.fatal hrunning s.presses.current
      by_cases hwaits : (s.presses.press s.presses.current).caller = .waitBits
      · have hsound := h.inv.sound s.presses.current
        simp only [Press.Sound, hwaits] at hsound
        obtain ⟨hnone, _⟩ | ⟨t, ht, hreported, hgroup⟩ := hsound
        · have htask := (h.staffed s.presses.current).task hwaits
          rw [hnone] at htask
          exact absurd htask (by simp)
        · by_cases hset : .finish ∈ SshTask.bitsOf t.calls
          · -- the bit is set, and the caller wakes
            obtain ⟨u, hu⟩ := step_of_callerStep (l := .xEventGroupWaitBits) hrunning hat
              (by simp [callerStep, hwaits, hgroup, hset])
            exact ⟨_, u, hu, rfl⟩
          · have hdeleted : t.pc ≠ .deleted := fun hdeleted =>
              hset ((SshTask.finish_mem_iff hreported).mpr (.inr hdeleted))
            have hpanicked : t.pc ≠ .panicked := by
              intro hpanicked
              simp [Press.fatal, ht, hpanicked] at hfatal
            obtain ⟨hplace, hpossible, hretries⟩ := onward_spec hdeleted hpanicked
            have htask := taskStep_eq_some.mpr
              ⟨t, _, ht, SshTask.step_eq_some.mpr ⟨⟨hplace, hpossible⟩, rfl⟩, rfl⟩
            obtain ⟨u, hu⟩ := step_of_taskStep hrunning htask
            exact ⟨_, u, hu, by simp [allowance, hretries]⟩
      · obtain ⟨l, hl⟩ := callerStep_of_sound (h.inv.sound _) hfatal hidle h.inv.here hwaits
        obtain ⟨u, hu⟩ := step_of_callerStep hrunning hat hl
        exact ⟨_, u, hu, rfl⟩

end Going

/-- A run has at most 32 steps for each `accept` and `recv` and one for each retry; and when every
task could be created, the port is never stuck on its way back to `recv`. -/
theorem press_ends (memory : Nat → UInt8) {ls : List Label} {t : State}
    (hr : run step (start memory) ls = some t) :
    ls.length ≤ total allowance ls ∧ ((∀ l ∈ ls, Created l) → NotStuck t) := by
  constructor
  · have keep : ∀ s l t, Inv s → step s l = some t → Inv t := fun _ _ _ h hstep => inv_step h hstep
    have pays : ∀ s l t, Inv s → step s l = some t → rank t + 1 ≤ rank s + allowance l :=
      fun _ _ _ h hstep => rank_of_step h hstep
    have hbound := length_run_le_total keep pays (inv_start memory) hr
    have hzero : rank (start memory) = 0 := by
      simp [rank, start, RunSshTask.start, Press.idle, pressRank, callerRank, pcRank]
    omega
  · intro hcreated
    have hlive := always_of_eachStep (P := Live) (C := fun _ l => Created l) (fun _ h => h)
      live_step (live_start memory) (eachStep_of_forall_mem hcreated)
    exact notStuck_of_live (hlive.last hr)

theorem press_ends_pressed : ∃ t, run step (start fun _ => 0) pressedRun = some t ∧
    t.pc = .blocked ∧ pressedRun.length ≤ total allowance pressedRun ∧ NotStuck t := by
  have hrun : (run step (start fun _ => 0) pressedRun).map State.pc = some .blocked := by
    decide +kernel
  obtain ⟨t, ht, hpc⟩ := Option.map_eq_some_iff.mp hrun
  have hcreated : ∀ l ∈ pressedRun, Created l := by
    simp [pressedRun, Created, TaskCreated]
  obtain ⟨hbound, hgoing⟩ := press_ends (fun _ => 0) ht
  exact ⟨t, ht, hpc, hbound, hgoing hcreated⟩

end InfoGlobe.RemoteCommand
