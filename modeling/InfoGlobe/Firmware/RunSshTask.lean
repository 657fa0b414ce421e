import InfoGlobe.Firmware.SshTask
import Mathlib.Logic.Function.Basic

/-!
`run_ssh_task_blocked` over any number of presses. The calls follow one another, each with its own
record on the stack, event group and task; a task that has set its last bit may still be there when
the next call has begun. Creating the task and the task's own steps interleave freely.
-/

namespace InfoGlobe.RunSshTask
open StepSystem SshTask

def espOk : Int := 0

def espFail : Int := -1

/-- Where a call of `run_ssh_task_blocked` stands. -/
inductive Caller
  | idle | createGroup | createTask | waitBits | getBits
  | deleteInput (ret : Int)
  | leave (ret : Int)
  | returned (ret : Int)
  | aborted
  deriving DecidableEq

/-- One call with everything that belongs to it; `none` is a group or a task that does not exist. -/
structure Press where
  caller : Caller
  command : List UInt8
  eventGroup : Option (Finset TaskBit)
  task : Option SshTask.State

def Press.idle : Press where
  caller := .idle
  command := []
  eventGroup := none
  task := none

inductive CallerLabel
  | call (command : List UInt8)
  | xEventGroupCreate (ok : Bool)
  | xTaskCreate (ok : Bool)
  | xEventGroupWaitBits
  | xEventGroupGetBits
  | vEventGroupDelete
  | leave
  deriving DecidableEq

/-- The statements of the caller. Creating the group is asserted, creating the task is not looked
at; the wait goes on without a limit until the bit is set, and clears it. -/
def callerStep (p : Press) (l : CallerLabel) : Option Press :=
  match p.caller, l with
  | .idle, .call command => some { p with caller := .createGroup, command := command }
  | .createGroup, .xEventGroupCreate true =>
      some { p with caller := .createTask, eventGroup := some ∅ }
  | .createGroup, .xEventGroupCreate false => some { p with caller := .aborted }
  | .createTask, .xTaskCreate ok =>
      some { p with
        caller := .waitBits
        task := if ok then some (SshTask.start p.command) else none }
  | .waitBits, .xEventGroupWaitBits =>
      p.eventGroup.bind fun bits =>
        if .finish ∈ bits then
          some { p with caller := .getBits, eventGroup := some (bits.erase .finish) }
        else none
  | .getBits, .xEventGroupGetBits =>
      p.eventGroup.map fun bits =>
        { p with caller := .deleteInput (if .fail ∈ bits then espFail else espOk) }
  | .deleteInput ret, .vEventGroupDelete =>
      some { p with caller := .leave ret, eventGroup := none }
  | .leave ret, .leave => some { p with caller := .returned ret }
  | _, _ => none

/-- A step of the task; the bits it sets go to the group of its call. -/
def taskStep (p : Press) (l : SshTask.Label) : Option Press :=
  p.task.bind fun t =>
    (SshTask.step t l).map fun u =>
      { p with
        eventGroup := p.eventGroup.map fun bits => bits ∪ bitsOf (outcome t l).2
        task := some u }

/-- A failed assertion of the caller or a panic of the task reboots the device. -/
def Press.fatal (p : Press) : Bool :=
  p.caller = .aborted || p.task.any fun t => t.pc = .panicked

/-- The call in progress is the one at `current`. -/
structure State where
  current : Nat
  press : Nat → Press
  halted : Bool

def start : State where
  current := 0
  press := fun _ => .idle
  halted := false

inductive Label
  | caller (l : CallerLabel)
  | task (k : Nat) (l : SshTask.Label)

/-- Behind a `return` the next call can begin. -/
def State.next (s : State) : CallerLabel → Nat
  | .leave => s.current + 1
  | _ => s.current

def step (s : State) : Label → Option State
  | .caller l =>
      if s.halted then none
      else (callerStep (s.press s.current) l).map fun p =>
        { current := s.next l, press := Function.update s.press s.current p, halted := p.fatal }
  | .task k l =>
      if s.halted then none
      else (taskStep (s.press k) l).map fun p =>
        { s with press := Function.update s.press k p, halted := p.fatal }

theorem step_caller {s t : State} {l : CallerLabel} (h : step s (.caller l) = some t) :
    s.halted = false ∧ ∃ p, callerStep (s.press s.current) l = some p ∧
      t.press = Function.update s.press s.current p ∧ t.halted = p.fatal := by
  simp only [step, Option.ite_none_left_eq_some, Option.map_eq_some_iff] at h
  obtain ⟨hrunning, p, hp, rfl⟩ := h
  exact ⟨by simpa using hrunning, p, hp, rfl, rfl⟩

theorem step_task {s t : State} {k : Nat} {l : SshTask.Label} (h : step s (.task k l) = some t) :
    s.halted = false ∧ ∃ p, taskStep (s.press k) l = some p ∧
      t.press = Function.update s.press k p ∧ t.halted = p.fatal := by
  simp only [step, Option.ite_none_left_eq_some, Option.map_eq_some_iff] at h
  obtain ⟨hrunning, p, hp, rfl⟩ := h
  exact ⟨by simpa using hrunning, p, hp, rfl, rfl⟩

theorem taskStep_eq_some {p q : Press} {l : SshTask.Label} :
    taskStep p l = some q ↔ ∃ t u, p.task = some t ∧ SshTask.step t l = some u ∧
      q = { p with
        eventGroup := p.eventGroup.map fun bits => bits ∪ bitsOf (outcome t l).2
        task := some u } := by
  simp only [taskStep, Option.bind_eq_some_iff, Option.map_eq_some_iff]
  constructor
  · rintro ⟨t, ht, u, hu, rfl⟩
    exact ⟨t, u, ht, hu, rfl⟩
  · rintro ⟨t, u, ht, hu, rfl⟩
    exact ⟨t, ht, u, hu, rfl⟩

/-- A step of the system is a step of one call. -/
theorem forall_press_of_step {I : Press → Prop} {s t : State} {l : Label}
    (hcaller : ∀ m p q, l = .caller m → I p → callerStep p m = some q → I q)
    (htask : ∀ p m q, I p → taskStep p m = some q → I q)
    (h : ∀ k, I (s.press k)) (hstep : step s l = some t) (k : Nat) : I (t.press k) := by
  cases l with
  | caller m =>
      obtain ⟨_, p, hp, hpress, _⟩ := step_caller hstep
      rw [hpress, Function.update_apply]
      split
      · exact hcaller m _ p rfl (h s.current) hp
      · exact h k
  | task j m =>
      obtain ⟨_, p, hp, hpress, _⟩ := step_task hstep
      rw [hpress, Function.update_apply]
      split
      · exact htask _ m p (h j) hp
      · exact h k

/-- The statements of the caller, each with what it finds and what it leaves. -/
inductive CallerMove (p : Press) : CallerLabel → Press → Prop
  | call (command : List UInt8) (hat : p.caller = .idle) :
      CallerMove p (.call command) { p with caller := .createGroup, command := command }
  | groupCreated (hat : p.caller = .createGroup) :
      CallerMove p (.xEventGroupCreate true) { p with caller := .createTask, eventGroup := some ∅ }
  | groupFailed (hat : p.caller = .createGroup) :
      CallerMove p (.xEventGroupCreate false) { p with caller := .aborted }
  | task (ok : Bool) (hat : p.caller = .createTask) :
      CallerMove p (.xTaskCreate ok)
        { p with
          caller := .waitBits
          task := if ok then some (SshTask.start p.command) else none }
  | woken (bits : Finset TaskBit) (hat : p.caller = .waitBits) (hbits : p.eventGroup = some bits)
      (hset : .finish ∈ bits) :
      CallerMove p .xEventGroupWaitBits
        { p with caller := .getBits, eventGroup := some (bits.erase .finish) }
  | told (bits : Finset TaskBit) (hat : p.caller = .getBits) (hbits : p.eventGroup = some bits) :
      CallerMove p .xEventGroupGetBits
        { p with caller := .deleteInput (if .fail ∈ bits then espFail else espOk) }
  | groupDeleted (ret : Int) (hat : p.caller = .deleteInput ret) :
      CallerMove p .vEventGroupDelete { p with caller := .leave ret, eventGroup := none }
  | left (ret : Int) (hat : p.caller = .leave ret) :
      CallerMove p .leave { p with caller := .returned ret }

theorem callerMove_of_step {p q : Press} {l : CallerLabel} (hstep : callerStep p l = some q) :
    CallerMove p l q := by
  unfold callerStep at hstep
  split at hstep
  case h_1 command hat =>
    obtain rfl := Option.some.inj hstep
    exact .call command hat
  case h_2 hat =>
    obtain rfl := Option.some.inj hstep
    exact .groupCreated hat
  case h_3 hat =>
    obtain rfl := Option.some.inj hstep
    exact .groupFailed hat
  case h_4 ok hat =>
    obtain rfl := Option.some.inj hstep
    exact .task ok hat
  case h_5 hat =>
    simp only [Option.bind_eq_some_iff, Option.ite_none_right_eq_some, Option.some.injEq] at hstep
    obtain ⟨bits, hbits, hset, rfl⟩ := hstep
    exact .woken bits hat hbits hset
  case h_6 hat =>
    obtain ⟨bits, hbits, rfl⟩ := Option.map_eq_some_iff.mp hstep
    exact .told bits hat hbits
  case h_7 ret hat =>
    obtain rfl := Option.some.inj hstep
    exact .groupDeleted ret hat
  case h_8 ret hat =>
    obtain rfl := Option.some.inj hstep
    exact .left ret hat
  case h_9 => exact absurd hstep (Option.some_ne_none q).symm

/-- The only way to a task, and to the wait for it, leads through `xTaskCreate`. -/
theorem keeps_task_or_xTaskCreate {p q : Press} {l : CallerLabel}
    (hstep : callerStep p l = some q) :
    q.task = p.task ∧ q.caller ≠ .waitBits ∨ ∃ ok, l = .xTaskCreate ok := by
  cases callerMove_of_step hstep with
  | task ok hat => exact .inr ⟨ok, rfl⟩
  | _ => exact .inl ⟨rfl, by simp⟩

theorem callerStep_xTaskCreate {p q : Press} {ok : Bool}
    (hstep : callerStep p (.xTaskCreate ok) = some q) : p.caller = .createTask ∧
      q = { p with
        caller := .waitBits
        task := if ok then some (SshTask.start p.command) else none } := by
  cases callerMove_of_step hstep with
  | task ok hat => exact ⟨hat, rfl⟩

/-! ### What holds of every call -/

/-- The task has set its last bit; all that remains is to delete itself. -/
def Finished (t : SshTask.State) : Prop := Reported t ∧ .finish ∈ bitsOf t.calls

def verdict (t : SshTask.State) : Int := if .fail ∈ bitsOf t.calls then espFail else espOk

/-- While the caller waits the group shows what the task has set; behind the wait the task has
finished and the group is the caller's alone. -/
def Press.Sound (p : Press) : Prop :=
  match p.caller with
  | .idle | .createGroup | .aborted => p.task = none ∧ p.eventGroup = none
  | .createTask => p.task = none ∧ p.eventGroup = some ∅
  | .waitBits =>
      (p.task = none ∧ p.eventGroup = some ∅) ∨
        ∃ t, p.task = some t ∧ Reported t ∧ p.eventGroup = some (bitsOf t.calls)
  | .getBits =>
      ∃ t, p.task = some t ∧ Finished t ∧ p.eventGroup = some ((bitsOf t.calls).erase .finish)
  | .deleteInput ret =>
      ∃ t, p.task = some t ∧ Finished t ∧ p.eventGroup = some ((bitsOf t.calls).erase .finish) ∧
        ret = verdict t
  | .leave ret | .returned ret =>
      ∃ t, p.task = some t ∧ Finished t ∧ p.eventGroup = none ∧ ret = verdict t

theorem sound_idle : Press.idle.Sound := ⟨rfl, rfl⟩

/-- A finished task does nothing more outside of itself. -/
theorem finished_step {t u : SshTask.State} {l : SshTask.Label} (h : Finished t)
    (hstep : SshTask.step t l = some u) :
    Finished u ∧ (outcome t l).2 = [] ∧ u.calls = t.calls := by
  have hu := reported_step t l u h.1 hstep
  obtain ⟨⟨hpc, _⟩, rfl⟩ := SshTask.step_eq_some.mp hstep
  have hplace := (finish_mem_iff h.1).mp h.2
  rw [hpc] at hplace
  cases l with
  | vTaskDelete =>
      have hcalls : (effect t .vTaskDelete).calls = t.calls := List.append_nil t.calls
      exact ⟨⟨hu, hcalls ▸ h.2⟩, rfl, hcalls⟩
  | setBits bit => cases bit <;> simp [SshTask.Label.pc] at hplace
  | _ => simp [SshTask.Label.pc] at hplace

theorem sound_taskStep (p : Press) (l : SshTask.Label) (q : Press) (h : p.Sound)
    (hstep : taskStep p l = some q) : q.Sound := by
  obtain ⟨t, u, ht, hu, rfl⟩ := taskStep_eq_some.mp hstep
  obtain ⟨caller, command, eventGroup, task⟩ := p
  obtain rfl : task = some t := ht
  cases caller with
  | idle | createGroup | aborted | createTask => exact absurd h.1 (Option.some_ne_none t)
  | waitBits =>
      obtain ⟨hnone, _⟩ | ⟨v, hv, hreported, hbits⟩ := h
      · exact absurd hnone (Option.some_ne_none t)
      · obtain rfl : t = v := Option.some.inj hv
        obtain rfl : eventGroup = some (bitsOf t.calls) := hbits
        refine .inr ⟨u, rfl, reported_step t l u hreported hu, ?_⟩
        obtain ⟨_, rfl⟩ := SshTask.step_eq_some.mp hu
        exact congrArg some (bitsOf_append t.calls (outcome t l).2).symm
  | getBits =>
      obtain ⟨v, hv, hfinished, hbits⟩ := h
      obtain rfl : t = v := Option.some.inj hv
      obtain rfl : eventGroup = some ((bitsOf t.calls).erase .finish) := hbits
      obtain ⟨hu, hsilent, hcalls⟩ := finished_step hfinished hu
      refine ⟨u, rfl, hu, ?_⟩
      simp only [hsilent, hcalls, Option.map_some, bitsOf_nil, Finset.union_empty]
  | deleteInput ret =>
      obtain ⟨v, hv, hfinished, hbits, hret⟩ := h
      obtain rfl : t = v := Option.some.inj hv
      obtain rfl : eventGroup = some ((bitsOf t.calls).erase .finish) := hbits
      obtain ⟨hu, hsilent, hcalls⟩ := finished_step hfinished hu
      refine ⟨u, rfl, hu, ?_, ?_⟩
      · simp only [hsilent, hcalls, Option.map_some, bitsOf_nil, Finset.union_empty]
      · rw [hret, verdict, verdict, hcalls]
  | leave ret | returned ret =>
      obtain ⟨v, hv, hfinished, hnone, hret⟩ := h
      obtain rfl : t = v := Option.some.inj hv
      obtain rfl : eventGroup = none := hnone
      obtain ⟨hu, _, hcalls⟩ := finished_step hfinished hu
      refine ⟨u, rfl, hu, rfl, ?_⟩
      rw [hret, verdict, verdict, hcalls]

theorem sound_callerStep (p : Press) (l : CallerLabel) (q : Press) (h : p.Sound)
    (hstep : callerStep p l = some q) : q.Sound := by
  unfold Press.Sound at h
  cases callerMove_of_step hstep with
  | call command hat =>
      simp only [hat] at h
      exact h
  | groupCreated hat =>
      simp only [hat] at h
      exact ⟨h.1, rfl⟩
  | groupFailed hat =>
      simp only [hat] at h
      exact h
  | task ok hat =>
      simp only [hat] at h
      cases ok with
      | false => exact .inl ⟨rfl, h.2⟩
      | true => exact .inr ⟨SshTask.start p.command, rfl, reported_start p.command, h.2⟩
  | woken bits hat hbits hset =>
      simp only [hat] at h
      obtain ⟨_, hempty⟩ | ⟨t, ht, hreported, hgroup⟩ := h
      · obtain rfl : bits = ∅ := Option.some.inj (hbits.symm.trans hempty)
        exact absurd hset (by simp)
      · obtain rfl : bits = bitsOf t.calls := Option.some.inj (hbits.symm.trans hgroup)
        exact ⟨t, ht, ⟨hreported, hset⟩, rfl⟩
  | told bits hat hbits =>
      simp only [hat] at h
      obtain ⟨t, ht, hfinished, hgroup⟩ := h
      obtain rfl := Option.some.inj (hbits.symm.trans hgroup)
      refine ⟨t, ht, hfinished, hgroup, ?_⟩
      simp [verdict]
  | groupDeleted ret hat =>
      simp only [hat] at h
      obtain ⟨t, ht, hfinished, _, hret⟩ := h
      exact ⟨t, ht, hfinished, rfl, hret⟩
  | left ret hat =>
      simp only [hat] at h
      exact h

theorem sound_step (s : State) (l : Label) (t : State) (h : ∀ k, (s.press k).Sound)
    (hstep : step s l = some t) : ∀ k, (t.press k).Sound :=
  forall_press_of_step (fun m p q _ => sound_callerStep p m q) sound_taskStep h hstep

end InfoGlobe.RunSshTask
