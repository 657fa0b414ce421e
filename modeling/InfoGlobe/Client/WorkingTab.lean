import InfoGlobe.Library.StepSystem

/-!
The life of a worker in a tab of the desktop client. A tab keeps one worker and its thread, a
request that finds them is ignored, and the slot for `finished` lets them go. `run` emits
`finished` behind the task, so a task that raises leaves the tab with its worker.
-/

namespace InfoGlobe.WorkingTab
open StepSystem
universe u

/-- How far a worker has come: it waits for its thread, connects, performs its task, has that
behind it, or is over with or without `finished`. -/
inductive Phase
  | created | started | connecting | performing | leaving | ended | raised
  deriving DecidableEq

def Phase.over : Phase → Bool
  | .ended | .raised => true
  | .created | .started | .connecting | .performing | .leaving => false

/-- A worker with the request it was made for, its thread, and how often it emitted `finished`. -/
structure Worker (ω : Type u) where
  request : ω
  phase : Phase
  threadActive : Bool
  finished : Nat

/-- A tab with every worker it has made, by number, and the `finished` signals on their way. -/
structure Tab (ω : Type u) where
  workers : List (Worker ω)
  tcpWorker : Option Nat
  tcpWorkerThread : Option Nat
  queued : List Nat

section Code
variable {ω : Type u}

def Tab.start : Tab ω where
  workers := []
  tcpWorker := none
  tcpWorkerThread := none
  queued := []

/-- The new worker and its thread become those of the tab. -/
def Tab.install (s : Tab ω) (request : ω) (startWorker : Bool) : Tab ω :=
  let worker : Worker ω :=
    { request := request
      phase := if startWorker then .started else .created
      threadActive := startWorker
      finished := 0 }
  { s with
    workers := s.workers ++ [worker]
    tcpWorker := some s.workers.length
    tcpWorkerThread := some s.workers.length }

def makeWorkerThread (s : Tab ω) (request : ω) (startWorker : Bool) : Tab ω :=
  if s.tcpWorkerThread = none then s.install request startWorker else s

/-- The slot for `finished`. -/
def tcpWorkerFinished (s : Tab ω) : Tab ω :=
  match s.tcpWorkerThread with
  | none => s
  | some i =>
      { s with
        workers := s.workers.modify i fun w => { w with threadActive := false }
        tcpWorker := none
        tcpWorkerThread := none }

/-- The clicks of the tabs, by the code they start a worker with. -/
inductive Click (ω : Type u)
  /-- `TXDataTab.send_button_click`, which does not use the helper. -/
  | sendButton (request : ω)
  /-- The clicks that end in `make_worker_thread`: raw bytes, control panel, connect. -/
  | helper (request : ω)
  /-- `OTATab.send_binary_button_click` with a file that exists. -/
  | sendBinary (request : ω)

def Click.effect (s : Tab ω) : Click ω → Tab ω
  | .sendButton request => if s.tcpWorkerThread = none then s.install request true else s
  | .helper request => makeWorkerThread s request true
  | .sendBinary request => if s.tcpWorker = none then makeWorkerThread s request true else s

inductive Label (ω : Type u)
  | click (c : Click ω)
  /-- The thread of a worker calls `run`. -/
  | run (i : Nat)
  | connectToGlobe (i : Nat) (connected : Bool)
  /-- `perform_task` returns or raises. -/
  | performTask (i : Nat) (returned : Bool)
  | emitFinished (i : Nat)
  /-- The event loop delivers the next `finished` to the tab. -/
  | tcpWorkerFinished

/-- What the thread of a worker does next. -/
def advance (s : Tab ω) (i : Nat) (before after : Phase) : Option (Tab ω) :=
  match s.workers[i]? with
  | none => none
  | some w =>
      if w.phase = before ∧ w.threadActive = true then
        some { s with workers := s.workers.set i { w with phase := after } }
      else none

def step (s : Tab ω) : Label ω → Option (Tab ω)
  | .click c => some (c.effect s)
  | .run i => advance s i .started .connecting
  | .connectToGlobe i connected =>
      advance s i .connecting (if connected then .performing else .leaving)
  | .performTask i returned => advance s i .performing (if returned then .leaving else .raised)
  | .emitFinished i =>
      match s.workers[i]? with
      | none => none
      | some w =>
          if w.phase = .leaving ∧ w.threadActive = true then
            some { s with
              workers := s.workers.set i { w with phase := .ended, finished := w.finished + 1 }
              queued := s.queued ++ [i] }
          else none
  | .tcpWorkerFinished =>
      match s.queued with
      | [] => none
      | _ :: rest => some (WorkingTab.tcpWorkerFinished { s with queued := rest })

end Code

/-! ### The tab and its worker -/

/-- A tab as it should be: one worker at most, which has yet to end or to be let go, and every run
that is over has emitted `finished` once. -/
structure Orderly {ω : Type u} (s : Tab ω) : Prop where
  together : s.tcpWorker = none ↔ s.tcpWorkerThread = none
  single : ∀ (i j : Nat) (w v : Worker ω), s.workers[i]? = some w → s.workers[j]? = some v →
    w.threadActive = true → v.threadActive = true → i = j
  emitted : ∀ w ∈ s.workers, w.finished = if w.phase.over = true then 1 else 0
  returns : ∀ i, s.tcpWorkerThread = some i →
    (∃ w, s.workers[i]? = some w ∧ w.phase.over = false) ∨ i ∈ s.queued

/-- The task returns. -/
def Returns {ω : Type u} : Label ω → Prop
  | .performTask _ returned => returned = true
  | .click _ | .run _ | .connectToGlobe _ _ | .emitFinished _ | .tcpWorkerFinished => True

structure Retired {ω : Type u} (w : Worker ω) : Prop where
  ended : w.phase = .ended
  inactive : w.threadActive = false
  finished : w.finished = 1

/-- The last worker of a tab: its run is not over, or its `finished` is on the way. -/
inductive Current {ω : Type u} (w : Worker ω) (i : Nat) (queued : List Nat) : Prop
  | running (phase : w.phase.over = false) (finished : w.finished = 0) (queued : queued = [])
  | ended (phase : w.phase = .ended) (finished : w.finished = 1) (queued : queued = [i])

/-- The tab has no worker, or the last one it made. -/
inductive Tidy {ω : Type u} (s : Tab ω) : Prop
  | idle (retired : ∀ w ∈ s.workers, Retired w) (worker : s.tcpWorker = none)
      (thread : s.tcpWorkerThread = none) (queued : s.queued = [])
  | busy (past : List (Worker ω)) (w : Worker ω) (workers : s.workers = past ++ [w])
      (retired : ∀ v ∈ past, Retired v) (worker : s.tcpWorker = some past.length)
      (thread : s.tcpWorkerThread = some past.length) (active : w.threadActive = true)
      (current : Current w past.length s.queued)

section Steps
variable {ω : Type u} {s t : Tab ω}

theorem tidy_start : Tidy (Tab.start : Tab ω) :=
  .idle (by simp [Tab.start]) rfl rfl rfl

theorem mem_or_last {past : List (Worker ω)} {w v : Worker ω} {i : Nat}
    (h : (past ++ [w])[i]? = some v) : v ∈ past ∨ (i = past.length ∧ v = w) := by
  rcases Nat.lt_or_ge i past.length with hlt | hge
  · rw [List.getElem?_append_left hlt] at h
    exact .inl (List.mem_of_getElem? h)
  · rw [List.getElem?_append_right hge] at h
    have hlen := (List.getElem?_eq_some_iff.mp h).1
    rw [List.length_singleton] at hlen
    have hi : i = past.length := by omega
    rw [hi, Nat.sub_self] at h
    exact .inr ⟨hi, (Option.some.inj h).symm⟩

/-- A worker whose thread is active is the last one. -/
theorem last_of_active {past : List (Worker ω)} {w v : Worker ω} {i : Nat}
    (retired : ∀ v ∈ past, Retired v) (h : (past ++ [w])[i]? = some v)
    (hactive : v.threadActive = true) : i = past.length ∧ v = w := by
  rcases mem_or_last h with hpast | hlast
  · exact absurd ((retired v hpast).inactive.symm.trans hactive) (by simp)
  · exact hlast

theorem Retired.emitted {w : Worker ω} (h : Retired w) :
    w.finished = if w.phase.over = true then 1 else 0 := by
  rw [h.ended, h.finished]
  rfl

theorem Current.emitted {w : Worker ω} {i : Nat} {queued : List Nat} (h : Current w i queued) :
    w.finished = if w.phase.over = true then 1 else 0 := by
  cases h with
  | running hphase hfinished _ => simp [hphase, hfinished]
  | ended hphase hfinished _ => simp [hphase, hfinished, Phase.over]

theorem Tidy.orderly (h : Tidy s) : Orderly s := by
  cases h with
  | idle retired worker thread queued =>
      refine ⟨by rw [worker, thread], ?_, fun w hw => (retired w hw).emitted, by simp [thread]⟩
      intro i j w v hw _ hactive _
      have hinactive := (retired w (List.mem_of_getElem? hw)).inactive
      exact absurd (hinactive.symm.trans hactive) (by simp)
  | busy past w workers retired worker thread active current =>
      refine ⟨by rw [worker, thread], ?_, ?_, ?_⟩
      · intro i j v u hv hu hvactive huactive
        rw [workers] at hv hu
        exact (last_of_active retired hv hvactive).1.trans
          (last_of_active retired hu huactive).1.symm
      · intro v hv
        rw [workers] at hv
        rcases List.mem_append.mp hv with hpast | hlast
        · exact (retired v hpast).emitted
        · exact List.mem_singleton.mp hlast ▸ current.emitted
      · intro i hi
        obtain rfl : past.length = i := Option.some.inj (thread.symm.trans hi)
        cases current with
        | running hphase _ _ => exact .inl ⟨w, by simp [workers], hphase⟩
        | ended _ _ hqueued => exact .inr (by simp [hqueued])

theorem tidy_install (h : Tidy s) (hidle : s.tcpWorkerThread = none) (request : ω) :
    Tidy (s.install request true) := by
  cases h with
  | idle retired _ _ queued =>
      exact .busy s.workers _ rfl retired rfl rfl rfl (.running rfl rfl queued)
  | busy _ _ _ _ _ thread _ _ => exact absurd (thread.symm.trans hidle) (by simp)

theorem tidy_click (h : Tidy s) (c : Click ω) : Tidy (c.effect s) := by
  cases c with
  | sendButton request | helper request =>
      simp only [Click.effect, makeWorkerThread]
      by_cases hidle : s.tcpWorkerThread = none
      · rw [if_pos hidle]
        exact tidy_install h hidle request
      · rw [if_neg hidle]
        exact h
  | sendBinary request =>
      simp only [Click.effect, makeWorkerThread]
      by_cases hidle : s.tcpWorkerThread = none
      · rw [if_pos hidle]
        by_cases hworker : s.tcpWorker = none
        · rw [if_pos hworker]
          exact tidy_install h hidle request
        · rw [if_neg hworker]
          exact h
      · rw [if_neg hidle, ite_self]
        exact h

/-- The worker of a step is the last one, and its run is not over. -/
theorem Tidy.acting (h : Tidy s) {i : Nat} {v : Worker ω} (hv : s.workers[i]? = some v)
    (hphase : v.phase ≠ .ended) (hactive : v.threadActive = true) :
    ∃ past, s.workers = past ++ [v] ∧ i = past.length ∧ (∀ u ∈ past, Retired u) ∧
      s.tcpWorker = some past.length ∧ s.tcpWorkerThread = some past.length ∧
      v.finished = 0 ∧ s.queued = [] := by
  cases h with
  | idle retired _ _ _ =>
      exact absurd (retired v (List.mem_of_getElem? hv)).ended hphase
  | busy past w workers retired worker thread active current =>
      rw [workers] at hv
      obtain ⟨rfl, rfl⟩ := last_of_active retired hv hactive
      cases current with
      | running _ hfinished hqueued =>
          exact ⟨past, workers, rfl, retired, worker, thread, hfinished, hqueued⟩
      | ended hended _ _ => exact absurd hended hphase

theorem of_advance {i : Nat} {before after : Phase} (h : advance s i before after = some t) :
    ∃ w, s.workers[i]? = some w ∧ w.phase = before ∧ w.threadActive = true ∧
      { s with workers := s.workers.set i { w with phase := after } } = t := by
  cases hw : s.workers[i]? with
  | none => simp [advance, hw] at h
  | some w =>
      simp only [advance, hw] at h
      obtain ⟨⟨hphase, hactive⟩, h⟩ := Option.ite_none_right_eq_some.mp h
      exact ⟨w, rfl, hphase, hactive, Option.some.inj h⟩

theorem tidy_advance (h : Tidy s) {i : Nat} {before after : Phase} (hbefore : before ≠ .ended)
    (hafter : after.over = false) (hstep : advance s i before after = some t) : Tidy t := by
  obtain ⟨v, hv, hphase, hactive, rfl⟩ := of_advance hstep
  obtain ⟨past, workers, rfl, retired, worker, thread, hfinished, hqueued⟩ :=
    h.acting hv (hphase ▸ hbefore) hactive
  refine .busy past { v with phase := after } ?_ retired worker thread hactive
    (.running hafter hfinished hqueued)
  simp [workers]

theorem tidy_emitFinished (h : Tidy s) {i : Nat} (hstep : step s (.emitFinished i) = some t) :
    Tidy t := by
  cases hv : s.workers[i]? with
  | none => simp [step, hv] at hstep
  | some v =>
      simp only [step, hv] at hstep
      obtain ⟨⟨hphase, hactive⟩, hstep⟩ := Option.ite_none_right_eq_some.mp hstep
      obtain rfl := Option.some.inj hstep
      obtain ⟨past, workers, rfl, retired, worker, thread, hfinished, hqueued⟩ :=
        h.acting hv (by simp [hphase]) hactive
      refine .busy past { v with phase := .ended, finished := v.finished + 1 } ?_ retired worker
        thread hactive (.ended rfl ?_ ?_)
      · simp [workers]
      · simp [hfinished]
      · simp [hqueued]

theorem modify_last (past : List (Worker ω)) (w : Worker ω) (f : Worker ω → Worker ω) :
    (past ++ [w]).modify past.length f = past ++ [f w] := by
  induction past with
  | nil => rfl
  | cons v past ih => rw [List.cons_append, List.length_cons, List.modify_succ_cons, ih]; rfl

theorem tidy_tcpWorkerFinished (h : Tidy s) (hstep : step s .tcpWorkerFinished = some t) :
    Tidy t := by
  cases hqueue : s.queued with
  | nil => simp [step, hqueue] at hstep
  | cons j rest =>
      simp only [step, hqueue] at hstep
      obtain rfl := Option.some.inj hstep
      cases h with
      | idle _ _ _ queued => exact absurd (queued.symm.trans hqueue) (by simp)
      | busy past w workers retired worker thread active current =>
          cases current with
          | running _ _ hqueued => exact absurd (hqueued.symm.trans hqueue) (by simp)
          | ended hphase hfinished hqueued =>
              obtain ⟨_, rfl⟩ := List.cons.inj (hqueued.symm.trans hqueue)
              simp only [WorkingTab.tcpWorkerFinished, thread]
              refine .idle (fun v hv => ?_) rfl rfl rfl
              have hlet : s.workers.modify past.length (fun w => { w with threadActive := false }) =
                  past ++ [{ w with threadActive := false }] := by
                rw [workers, modify_last]
              rw [hlet] at hv
              rcases List.mem_append.mp hv with hpast | hlast
              · exact retired v hpast
              · rw [List.mem_singleton.mp hlast]
                exact ⟨hphase, rfl, hfinished⟩

theorem tidy_step (s : Tab ω) (l : Label ω) (t : Tab ω) (h : Tidy s) (hl : Returns l)
    (hstep : step s l = some t) : Tidy t := by
  cases l with
  | click c =>
      obtain rfl := Option.some.inj hstep
      exact tidy_click h c
  | run i => exact tidy_advance h (by simp) rfl hstep
  | connectToGlobe i connected => exact tidy_advance h (by simp) (by cases connected <;> rfl) hstep
  | performTask i returned =>
      obtain rfl : returned = true := hl
      exact tidy_advance h (by simp) rfl hstep
  | emitFinished i => exact tidy_emitFinished h hstep
  | tcpWorkerFinished => exact tidy_tcpWorkerFinished h hstep

/-- A task that raises is a run that is over and has emitted nothing. -/
theorem returns_of_orderly (s : Tab ω) (l : Label ω) (t : Tab ω) (h : Tidy s)
    (hstep : step s l = some t) (ht : Orderly t) : Returns l := by
  cases l with
  | click _ | run _ | connectToGlobe _ _ | emitFinished _ | tcpWorkerFinished => trivial
  | performTask i returned =>
      cases returned with
      | true => rfl
      | false =>
          obtain ⟨v, hv, hphase, hactive, rfl⟩ := of_advance hstep
          obtain ⟨past, workers, rfl, _, _, _, hfinished, _⟩ :=
            h.acting hv (by simp [hphase]) hactive
          have hemitted := ht.emitted { v with phase := .raised } (by simp [workers])
          simp [hfinished, Phase.over] at hemitted

end Steps

/-- In exactly the runs in which no task raises, the tab keeps its worker in order. -/
theorem orderly_iff {ω : Type u} (ls : List (Label ω)) :
    Always step Orderly (Tab.start : Tab ω) ls ↔
      EachStep step (fun _ l => Returns l) (Tab.start : Tab ω) ls :=
  always_iff_eachStep (fun _ h => h.orderly) tidy_step returns_of_orderly tidy_start ls

/-- The globe takes the connection, and `sendall` raises. -/
theorem raising_task_keeps_worker :
    ¬Always step Orderly (Tab.start : Tab Unit)
      [.click (.sendButton ()), .run 0, .connectToGlobe 0 true, .performTask 0 false] := by
  intro h
  have hlast := Always.last h rfl
  have hemitted := hlast.emitted ⟨(), .raised, true, 0⟩ (List.mem_singleton_self _)
  exact absurd hemitted (by decide)

end InfoGlobe.WorkingTab
