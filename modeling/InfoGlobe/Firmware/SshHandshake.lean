import InfoGlobe.Firmware.RunSshTask

/-!
The agreement between a call of `run_ssh_task_blocked` and its task. The last bit the task sets is
also the last thing it does with the record and the event group of the caller, and the caller gives
them up behind its wait for that bit. Whether the bit is ever set depends on whether there is a task.
-/

namespace InfoGlobe.RunSshTask
open StepSystem SshTask

/-- What a call and its task agree on; setting FAIL is the first thing `ssh_task_fail` does. -/
structure Handshake (p : Press) : Prop where
  finished : ∀ ret, p.caller = .returned ret → ∃ t ∈ p.task, .setBits .finish ∈ t.calls
  told : ∀ ret, p.caller = .returned ret → ∀ t ∈ p.task, (ret = espOk ↔ .setBits .fail ∉ t.calls)
  exclusive : ∀ bits ∈ p.eventGroup, ¬(.fail ∈ bits ∧ .cmdSuccess ∈ bits)

/-- The record is on the stack of a call in progress, and its event group exists. -/
def Press.inputLives (p : Press) : Prop := p.eventGroup.isSome ∧ ∀ ret, p.caller ≠ .returned ret

/-- A task touches its input only as long as the caller has not given it up. -/
def TouchesLive (s : State) : Label → Prop
  | .caller _ => True
  | .task k l =>
      ∀ t ∈ (s.press k).task, ∀ c ∈ (outcome t l).2, c.touches = true → (s.press k).inputLives

theorem verdict_eq_ok {t : SshTask.State} : verdict t = espOk ↔ .setBits .fail ∉ t.calls := by
  rw [← mem_bitsOf]
  rw [verdict]
  by_cases hfail : .fail ∈ bitsOf t.calls
  · rw [if_pos hfail]
    exact iff_of_false (by decide) (not_not.mpr hfail)
  · rw [if_neg hfail]
    exact iff_of_true rfl hfail

theorem sound_returned {p : Press} {ret : Int} (h : p.Sound) (hret : p.caller = .returned ret) :
    ∃ t, p.task = some t ∧ Finished t ∧ p.eventGroup = none ∧ ret = verdict t := by
  simpa only [Press.Sound, hret] using h

/-- The bits of a group are bits that the task of the call has set. -/
theorem bits_of_sound {p : Press} (h : p.Sound) {bits : Finset TaskBit}
    (hbits : p.eventGroup = some bits) :
    bits = ∅ ∨ ∃ t, Reported t ∧ bits ⊆ bitsOf t.calls := by
  obtain ⟨caller, command, eventGroup, task⟩ := p
  obtain rfl : eventGroup = some bits := hbits
  cases caller with
  | idle | createGroup | aborted => exact absurd h.2 (Option.some_ne_none bits)
  | createTask => exact .inl (Option.some.inj h.2)
  | waitBits =>
      obtain ⟨_, hempty⟩ | ⟨t, _, hreported, hgroup⟩ := h
      · exact .inl (Option.some.inj hempty)
      · exact .inr ⟨t, hreported, (Option.some.inj hgroup).le⟩
  | getBits =>
      obtain ⟨t, _, hfinished, hgroup⟩ := h
      exact .inr ⟨t, hfinished.1, (Option.some.inj hgroup).le.trans (Finset.erase_subset _ _)⟩
  | deleteInput ret =>
      obtain ⟨t, _, hfinished, hgroup, _⟩ := h
      exact .inr ⟨t, hfinished.1, (Option.some.inj hgroup).le.trans (Finset.erase_subset _ _)⟩
  | leave ret | returned ret =>
      obtain ⟨t, _, _, hnone, _⟩ := h
      exact absurd hnone (Option.some_ne_none bits)

theorem exclusive_of_sound {p : Press} (h : p.Sound) :
    ∀ bits ∈ p.eventGroup, ¬(.fail ∈ bits ∧ .cmdSuccess ∈ bits) := by
  rintro bits hbits ⟨hfail, hsuccess⟩
  obtain rfl | ⟨t, hreported, hsub⟩ := bits_of_sound h hbits
  · exact absurd hfail (by simp)
  · exact not_fail_and_success hreported ⟨hsub hfail, hsub hsuccess⟩

/-- Before its last bit the task finds the caller at its wait. -/
theorem inputLives_of_sound {p : Press} (h : p.Sound) {t : SshTask.State} (ht : p.task = some t)
    (hrunning : ¬Finished t) : p.inputLives := by
  obtain ⟨caller, command, eventGroup, task⟩ := p
  obtain rfl : task = some t := ht
  cases caller with
  | idle | createGroup | aborted | createTask => exact absurd h.1 (Option.some_ne_none t)
  | waitBits =>
      obtain ⟨hnone, _⟩ | ⟨u, _, _, hgroup⟩ := h
      · exact absurd hnone (Option.some_ne_none t)
      · obtain rfl : eventGroup = some (bitsOf u.calls) := hgroup
        exact ⟨rfl, by simp⟩
  | getBits | deleteInput ret | leave ret | returned ret =>
      obtain ⟨u, hu, hfinished, _⟩ := h
      obtain rfl : t = u := Option.some.inj hu
      exact absurd hfinished hrunning

theorem handshake_of_sound {p : Press} (h : p.Sound) : Handshake p := by
  refine ⟨?_, ?_, exclusive_of_sound h⟩
  · intro ret hret
    obtain ⟨t, ht, hfinished, _⟩ := sound_returned h hret
    exact ⟨t, ht, mem_bitsOf.mp hfinished.2⟩
  · intro ret hret u hu
    obtain ⟨t, ht, _, _, rfl⟩ := sound_returned h hret
    obtain rfl : u = t := Option.some.inj (hu.symm.trans ht)
    exact verdict_eq_ok

theorem touchesLive_of_sound {s t : State} {l : Label} (h : ∀ k, (s.press k).Sound)
    (hstep : step s l = some t) : TouchesLive s l := by
  cases l with
  | caller l => trivial
  | task k l =>
      intro v hv c hc htouches
      obtain ⟨_, p, hp, _⟩ := step_task hstep
      obtain ⟨w, u, hw, hu, _⟩ := taskStep_eq_some.mp hp
      obtain rfl : v = w := Option.some.inj (hv.symm.trans hw)
      refine inputLives_of_sound (h k) hv fun hfinished => ?_
      rw [(finished_step hfinished hu).2.1] at hc
      exact absurd hc List.not_mem_nil

/-- The handshake holds in every state of every run, whatever the calls answer and however the
tasks are scheduled. -/
theorem ssh_handshake (ls : List Label) :
    Always step (fun s => ∀ k, Handshake (s.press k)) start ls ∧
      EachStep step TouchesLive start ls := by
  have hstart : ∀ k, (start.press k).Sound := fun _ => sound_idle
  constructor
  · exact always_of_invariant (fun s h k => handshake_of_sound (h k)) sound_step hstart ls
  · exact eachStep_of_invariant (I := fun s => ∀ k, (s.press k).Sound)
      (fun s l t h hstep => touchesLive_of_sound h hstep) sound_step hstart ls

/-! ### Waiting -/

/-- A caller that waits has a live task that will still set the bit, or the bit is set. -/
def Press.Served (p : Press) : Prop :=
  p.caller = .waitBits → (∃ bits ∈ p.eventGroup, .finish ∈ bits) ∨
    ∃ t ∈ p.task, t.pc ≠ .deleted ∧ .setBits .finish ∉ t.calls

def NoOrphan (s : State) : Prop := s.halted = false → ∀ k, (s.press k).Served

def TaskCreated : Label → Prop
  | .caller (.xTaskCreate ok) => ok = true
  | .caller (.call _) | .caller (.xEventGroupCreate _) | .caller .xEventGroupWaitBits
  | .caller .xEventGroupGetBits | .caller .vEventGroupDelete | .caller .leave | .task _ _ => True

/-- The task of a call that waits exists. -/
structure Press.Staffed (p : Press) : Prop where
  sound : p.Sound
  task : p.caller = .waitBits → p.task.isSome

theorem served_of_staffed {p : Press} (h : p.Staffed) : p.Served := by
  intro hwaits
  have hsound := h.sound
  simp only [Press.Sound, hwaits] at hsound
  obtain ⟨hnone, _⟩ | ⟨t, ht, hreported, hgroup⟩ := hsound
  · exact absurd (h.task hwaits) (by simp [hnone])
  · by_cases hset : .finish ∈ bitsOf t.calls
    · exact .inl ⟨bitsOf t.calls, hgroup, hset⟩
    · refine .inr ⟨t, ht, fun hpc => ?_, fun hmem => hset (mem_bitsOf.mpr hmem)⟩
      exact hset ((finish_mem_iff hreported).mpr (.inr hpc))

theorem staffed_callerStep {p q : Press} {l : CallerLabel} (h : p.Staffed)
    (hl : TaskCreated (.caller l)) (hstep : callerStep p l = some q) : q.Staffed := by
  refine ⟨sound_callerStep p l q h.sound hstep, fun hwaits => ?_⟩
  obtain ⟨_, hother⟩ | ⟨ok, rfl⟩ := keeps_task_or_xTaskCreate hstep
  · exact absurd hwaits hother
  · obtain ⟨_, rfl⟩ := callerStep_xTaskCreate hstep
    obtain rfl : ok = true := hl
    rfl

theorem staffed_taskStep (p : Press) (l : SshTask.Label) (q : Press) (h : p.Staffed)
    (hstep : taskStep p l = some q) : q.Staffed := by
  refine ⟨sound_taskStep p l q h.sound hstep, fun _ => ?_⟩
  obtain ⟨t, u, _, _, rfl⟩ := taskStep_eq_some.mp hstep
  rfl

theorem staffed_step (s : State) (l : Label) (t : State) (h : ∀ k, (s.press k).Staffed)
    (hl : TaskCreated l) (hstep : step s l = some t) : ∀ k, (t.press k).Staffed := by
  refine forall_press_of_step ?_ staffed_taskStep h hstep
  rintro m p q rfl hp hq
  exact staffed_callerStep hp hl hq

/-- A caller whose task could not be created waits for a bit that nobody sets. -/
theorem taskCreated_of_noOrphan (s : State) (l : Label) (t : State)
    (h : ∀ k, (s.press k).Staffed) (hstep : step s l = some t) (ht : NoOrphan t) :
    TaskCreated l := by
  cases l with
  | task k l => trivial
  | caller l =>
      cases l with
      | xTaskCreate ok =>
          obtain ⟨_, q, hq, hpress, hhalted⟩ := step_caller hstep
          obtain ⟨hcaller, rfl⟩ := callerStep_xTaskCreate hq
          by_contra hfailed
          obtain rfl : ok = false := by simpa [TaskCreated] using hfailed
          have hempty : (s.press s.current).eventGroup = some ∅ := by
            have hsound := (h s.current).sound
            simp only [Press.Sound, hcaller] at hsound
            exact hsound.2
          have hserved := ht (by simp [hhalted, Press.fatal]) s.current
          rw [hpress, Function.update_self] at hserved
          obtain ⟨bits, hbits, hset⟩ | ⟨u, hu, _⟩ := hserved rfl
          · obtain rfl : bits = ∅ := Option.some.inj (hbits.symm.trans hempty)
            exact absurd hset (by simp)
          · exact absurd hu (by simp)
      | _ => trivial

/-- No caller waits in vain, in exactly the runs in which every task could be created. -/
theorem no_orphaned_wait_iff (ls : List Label) :
    Always step NoOrphan start ls ↔ EachStep step (fun _ l => TaskCreated l) start ls := by
  refine always_iff_eachStep (I := fun s => ∀ k, (s.press k).Staffed)
    (fun s h _ k => served_of_staffed (h k)) staffed_step taskCreated_of_noOrphan ?_ ls
  exact fun k => ⟨sound_idle, fun hwaits => absurd hwaits (by simp [start, Press.idle])⟩

/-- There is no memory left for the stack of the task. -/
def outOfMemoryRun : List Label :=
  [.caller (.call [0x71, 0x6d]), .caller (.xEventGroupCreate true), .caller (.xTaskCreate false)]

theorem out_of_memory_orphans_caller : ¬Always step NoOrphan start outOfMemoryRun := by
  intro h
  have hserved := h.last (t := _) rfl rfl 0 rfl
  obtain ⟨bits, hbits, hset⟩ | ⟨t, ht, _⟩ := hserved
  · obtain rfl : ∅ = bits := Option.some.inj hbits
    exact absurd hset (by simp)
  · exact absurd ht (Option.some_ne_none t).symm

end InfoGlobe.RunSshTask
