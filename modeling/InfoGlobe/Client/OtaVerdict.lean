import InfoGlobe.Client.TcpWorker

/-!
The verdict of the update worker. Its own returns emit one status, and the way through the whole
file emits a single 0. What raises on the way ends up behind the `try`, where a 0 is emitted for a
file that was not sent or not answered.
-/

namespace InfoGlobe.OtaWorker
open StepSystem

/-- The worker, with what it handed to `sendall` and what `recv` gave it for the chunks and at the
end. -/
structure Observed where
  worker : State
  handed : List (List UInt8)
  responses : List (List UInt8)
  finals : List (List UInt8)

def observeStart (file : List UInt8) (chunkSize : Nat) : Observed where
  worker := start file chunkSize
  handed := []
  responses := []
  finals := []

/-- The record of a step that the worker leaves in the state `t`. -/
def Observed.record (o : Observed) (t : State) : Label → Observed
  | .sendall _ => { o with worker := t, handed := o.handed ++ [o.worker.chunk] }
  | .recv response =>
      if o.worker.pc = .recvChunk then
        { o with worker := t, responses := o.responses ++ [response] }
      else { o with worker := t, finals := o.finals ++ [response] }
  | .openFile _ | .read | .timeout | .recvError => { o with worker := t }

def observedStep (o : Observed) (l : Label) : Option Observed :=
  (step o.worker l).map fun t => o.record t l

/-- The response is text with "ACK" in it. -/
def Acked (response : List UInt8) : Prop := (decode response).any containsAck = true

/-- One status, and 0 only for a file that was handed over, answered chunk by chunk, and confirmed
at the end. -/
structure Honest (file : List UInt8) (o : Observed) : Prop where
  once : o.worker.exitStatus.length = 1
  complete : 0 ∈ o.worker.exitStatus → o.handed.flatten = file
  answered : 0 ∈ o.worker.exitStatus →
    o.responses.length = o.handed.length ∧ ∀ response ∈ o.responses, Acked response
  confirmed : 0 ∈ o.worker.exitStatus → o.finals ≠ []

/-- The verdict, once the worker has one. -/
def HonestAtEnd (file : List UInt8) (o : Observed) : Prop :=
  o.worker.pc = .done → Honest file o

/-- Something raises in the `try` before the final response is there. -/
def Interrupts (s : State) : Label → Prop
  | .openFile found => found = false
  | .sendall ok => ok = false
  | .recv response => s.pc = .recvChunk ∧ decode response = none
  | .recvError => True
  | .read | .timeout => False

instance (s : State) : DecidablePred (Interrupts s)
  | .openFile found => inferInstanceAs (Decidable (found = false))
  | .sendall ok => inferInstanceAs (Decidable (ok = false))
  | .recv response => inferInstanceAs (Decidable (s.pc = .recvChunk ∧ decode response = none))
  | .recvError => .isTrue trivial
  | .read | .timeout => .isFalse not_false

/-! ### On the way through the file -/

/-- The chunk that was read and is not handed over yet. -/
def State.unsent (s : State) : List UInt8 := if s.pc = .sendall then s.chunk else []

structure Sending (file : List UInt8) (o : Observed) : Prop where
  size : o.worker.binarySize = file.length
  chunkSize : 0 < o.worker.chunkSize
  delivered : o.handed.flatten ++ o.worker.unsent ++ o.worker.binaryFile = file
  total : o.worker.totalTxSize = (o.handed.flatten ++ o.worker.unsent).length
  acked : ∀ response ∈ o.responses, Acked response
  answered : o.handed.length = o.responses.length + if o.worker.pc = .recvChunk then 1 else 0
  emptied : o.worker.pc = .recvFinal → o.worker.binaryFile = []
  silent : o.worker.exitStatus = []
  unconfirmed : o.finals = []

def Tracked (file : List UInt8) (o : Observed) : Prop :=
  HonestAtEnd file o ∧ (o.worker.pc ≠ .done → Sending file o)

section Steps
variable {file : List UInt8} {o : Observed} {t : Observed}

theorem sending_start (file : List UInt8) {chunkSize : Nat} (h : 0 < chunkSize) :
    Sending file (observeStart file chunkSize) := by
  constructor <;> simp [observeStart, start, State.unsent, h]

/-- A return of the worker with a failing status. -/
theorem honest_exit {s : State} (h : s.exitStatus = []) {status : Int} (hstatus : status ≠ 0)
    (handed responses finals : List (List UInt8)) :
    Honest file ⟨s.exit status, handed, responses, finals⟩ := by
  have hfail : 0 ∉ (s.exit status).exitStatus := by
    simp [State.exit, h, hstatus.symm]
  refine ⟨by simp [State.exit, h], ?_, ?_, ?_⟩
  · exact fun hzero => absurd hzero hfail
  · exact fun hzero => absurd hzero hfail
  · exact fun hzero => absurd hzero hfail

theorem zero_mem_behindTry (s : State) : 0 ∈ s.behindTry.exitStatus := by
  simp [State.behindTry]

/-- The response at the end, whatever it says. -/
theorem honest_recvFinal (h : Sending file o) (hpc : o.worker.pc = .recvFinal)
    (response : List UInt8) :
    Honest file ⟨o.worker.behindTry, o.handed, o.responses, o.finals ++ [response]⟩ := by
  have hempty := h.emptied hpc
  have hhanded : o.handed.flatten = file := by
    simpa [State.unsent, hpc, hempty] using h.delivered
  have htotal : o.worker.totalTxSize = o.worker.binarySize := by
    rw [h.total, h.size]
    simp [State.unsent, hpc, hhanded]
  refine ⟨?_, fun _ => hhanded, fun _ => ⟨?_, h.acked⟩, fun _ => by simp⟩
  · simp [State.behindTry, htotal, h.silent]
  · simpa [hpc] using h.answered.symm

theorem observedStep_eq_some {o' : Observed} {l : Label} :
    observedStep o l = some o' ↔
      enabled o.worker l = true ∧ o.record (effect o.worker l) l = o' := by
  simp [observedStep, step]

/-- A step that goes on. -/
theorem tracked_of_sending (hpc : o.worker.pc ≠ .done) (h : Sending file o) : Tracked file o :=
  ⟨fun hdone => absurd hdone hpc, fun _ => h⟩

/-- A step that ends the worker. -/
theorem tracked_of_honest (hpc : o.worker.pc = .done) (h : Honest file o) : Tracked file o :=
  ⟨fun _ => h, fun hne => absurd hpc hne⟩

theorem Sending.openFile (h : Sending file o) (hpc : o.worker.pc = .openFile) :
    Sending file { o with worker := { o.worker with pc := .read } } := by
  refine ⟨h.size, h.chunkSize, ?_, ?_, h.acked, ?_, by simp, h.silent, h.unconfirmed⟩
  · simpa [State.unsent, hpc] using h.delivered
  · simpa [State.unsent, hpc] using h.total
  · simpa [hpc] using h.answered

/-- The chunk moves from the file to the worker; behind the last one there is nothing to move. -/
theorem Sending.read (h : Sending file o) (hpc : o.worker.pc = .read) :
    Sending file { o with worker := effect o.worker .read } := by
  have hdelivered : o.handed.flatten ++ o.worker.binaryFile = file := by
    simpa [State.unsent, hpc] using h.delivered
  have htotal : o.worker.totalTxSize = o.handed.flatten.length := by
    simpa [State.unsent, hpc] using h.total
  have hanswered : o.handed.length = o.responses.length := by simpa [hpc] using h.answered
  have hsplit := List.take_append_drop o.worker.chunkSize o.worker.binaryFile
  by_cases hchunk : o.worker.binaryFile.take o.worker.chunkSize = []
  · have hend : o.worker.binaryFile = [] :=
      (List.take_eq_nil_iff.mp hchunk).resolve_left (Nat.ne_of_gt h.chunkSize)
    refine ⟨h.size, h.chunkSize, ?_, ?_, h.acked, ?_, ?_, h.silent, h.unconfirmed⟩
    · simpa [effect, State.unsent, hend] using hdelivered
    · simpa [effect, State.unsent, hend] using htotal
    · simpa [effect, hend] using hanswered
    · simp [effect, hend]
  · refine ⟨h.size, h.chunkSize, ?_, ?_, h.acked, ?_, ?_, h.silent, h.unconfirmed⟩
    · simpa [effect, State.unsent, hchunk, hsplit] using hdelivered
    · simp [effect, State.unsent, hchunk, htotal]
    · simpa [effect, hchunk] using hanswered
    · simp [effect, hchunk]

theorem Sending.sendall (h : Sending file o) (hpc : o.worker.pc = .sendall) :
    Sending file (o.record (effect o.worker (.sendall true)) (.sendall true)) := by
  refine ⟨h.size, h.chunkSize, ?_, ?_, h.acked, ?_, ?_, h.silent, h.unconfirmed⟩
  · simpa [Observed.record, effect, State.unsent, hpc] using h.delivered
  · simpa [Observed.record, effect, State.unsent, hpc] using h.total
  · simpa [Observed.record, effect, hpc] using h.answered
  · simp [Observed.record, effect]

theorem Sending.recvAck (h : Sending file o) (hpc : o.worker.pc = .recvChunk)
    {response : List UInt8} (hack : Acked response) :
    Sending file
      { o with worker := { o.worker with pc := .read }, responses := o.responses ++ [response] } := by
  refine ⟨h.size, h.chunkSize, ?_, ?_, ?_, ?_, by simp, h.silent, h.unconfirmed⟩
  · simpa [State.unsent, hpc] using h.delivered
  · simpa [State.unsent, hpc] using h.total
  · exact List.forall_mem_append.mpr ⟨h.acked, List.forall_mem_singleton.mpr hack⟩
  · simpa [hpc] using h.answered

theorem tracked_recv (h : Sending file o) {response : List UInt8}
    (henabled : o.worker.pc = .recvChunk ∨ o.worker.pc = .recvFinal)
    (hl : ¬Interrupts o.worker (.recv response)) :
    Tracked file (o.record (effect o.worker (.recv response)) (.recv response)) := by
  rcases henabled with hpc | hpc
  · obtain ⟨text, htext⟩ : ∃ text, decode response = some text :=
      Option.ne_none_iff_exists'.mp fun hnone => hl ⟨hpc, hnone⟩
    cases hack : containsAck text with
    | true =>
        have hrecord : o.record (effect o.worker (.recv response)) (.recv response) =
            { o with
              worker := { o.worker with pc := .read }
              responses := o.responses ++ [response] } := by
          simp [Observed.record, effect, hpc, htext, hack]
        rw [hrecord]
        exact tracked_of_sending (by simp) (h.recvAck hpc (by simp [Acked, htext, hack]))
    | false =>
        have hrecord : o.record (effect o.worker (.recv response)) (.recv response) =
            ⟨o.worker.exit (-2), o.handed, o.responses ++ [response], o.finals⟩ := by
          simp [Observed.record, effect, hpc, htext, hack]
        rw [hrecord]
        exact tracked_of_honest rfl (honest_exit h.silent (by decide) _ _ _)
  · have hrecord : o.record (effect o.worker (.recv response)) (.recv response) =
        ⟨o.worker.behindTry, o.handed, o.responses, o.finals ++ [response]⟩ := by
      simp [Observed.record, effect, hpc]
    rw [hrecord]
    exact tracked_of_honest rfl (honest_recvFinal h hpc response)

theorem tracked_of_step (h : Sending file o) {l : Label} (hl : ¬Interrupts o.worker l)
    {o' : Observed} (hstep : observedStep o l = some o') : Tracked file o' := by
  obtain ⟨henabled, rfl⟩ := observedStep_eq_some.mp hstep
  cases l with
  | openFile found =>
      obtain rfl : found = true := by simpa [Interrupts] using hl
      have hpc : o.worker.pc = .openFile := by simpa [enabled] using henabled
      exact tracked_of_sending (by simp [Observed.record, effect]) (h.openFile hpc)
  | read =>
      have hpc : o.worker.pc = .read := by simpa [enabled] using henabled
      refine tracked_of_sending ?_ (h.read hpc)
      simp only [Observed.record, effect]
      split <;> simp
  | sendall ok =>
      obtain rfl : ok = true := by simpa [Interrupts] using hl
      have hpc : o.worker.pc = .sendall := by simpa [enabled] using henabled
      exact tracked_of_sending (by simp [Observed.record, effect]) (h.sendall hpc)
  | recv response => exact tracked_recv h (by simpa [enabled] using henabled) hl
  | timeout =>
      simp only [Observed.record, effect]
      split
      · exact tracked_of_honest rfl (honest_exit h.silent (by decide) _ _ _)
      · exact tracked_of_honest rfl (honest_exit h.silent (by decide) _ _ _)
  | recvError => exact absurd trivial hl

/-- Behind the `try` without a final response, a 0 is emitted that nothing stands behind. -/
theorem not_honest_of_interrupts (h : Sending file o) {l : Label} (hl : Interrupts o.worker l)
    {o' : Observed} (hstep : observedStep o l = some o') : ¬HonestAtEnd file o' := by
  obtain ⟨henabled, rfl⟩ := observedStep_eq_some.mp hstep
  have heffect : effect o.worker l = o.worker.behindTry := by
    apply effect_of_leaves henabled
    cases l with
    | recv response => exact .inl hl.2
    | openFile _ | sendall _ | recvError => exact .inl hl
    | read | timeout => exact hl.elim
  have hrecord : (o.record o.worker.behindTry l).worker = o.worker.behindTry ∧
      (o.record o.worker.behindTry l).finals = [] := by
    cases l with
    | recv response => simp [Observed.record, hl.1, h.unconfirmed]
    | _ => exact ⟨rfl, h.unconfirmed⟩
  rw [heffect]
  intro hend
  have hhonest := hend (by rw [hrecord.1]; rfl)
  refine hhonest.confirmed ?_ hrecord.2
  rw [hrecord.1]
  exact zero_mem_behindTry o.worker

theorem not_done_of_observedStep {l : Label} {o' : Observed} (hstep : observedStep o l = some o') :
    o.worker.pc ≠ .done := by
  obtain ⟨henabled, _⟩ := observedStep_eq_some.mp hstep
  exact not_done_of_step (step_eq_some.mpr ⟨henabled, rfl⟩)

end Steps

/-! ### The end of the worker -/

/-- How many steps there are before the next chunk is read. -/
def Pc.rank : Pc → Nat
  | .done => 0
  | .recvFinal => 1
  | .read => 2
  | .recvChunk | .openFile => 3
  | .sendall => 4

def State.remaining (s : State) : Nat := 3 * s.binaryFile.length + s.pc.rank

@[simp] theorem record_worker (o : Observed) (t : State) (l : Label) : (o.record t l).worker = t := by
  cases l with
  | recv response =>
      simp only [Observed.record]
      split <;> rfl
  | _ => rfl

/-- Every chunk takes at least a byte from the file. -/
theorem remaining_of_step {s t : State} {l : Label} (hpos : 0 < s.chunkSize)
    (hstep : step s l = some t) : t.chunkSize = s.chunkSize ∧ t.remaining < s.remaining := by
  obtain ⟨henabled, rfl⟩ := step_eq_some.mp hstep
  cases l with
  | openFile ok | sendall ok =>
      have hpc := of_decide_eq_true henabled
      cases ok <;> simp [effect, State.behindTry, State.remaining, Pc.rank, hpc]
  | read =>
      have hpc : s.pc = .read := of_decide_eq_true henabled
      refine ⟨rfl, ?_⟩
      simp only [effect, State.remaining, hpc, List.length_drop]
      by_cases hchunk : s.binaryFile.take s.chunkSize = []
      · simp only [if_pos hchunk, Pc.rank]
        omega
      · rw [if_neg hchunk]
        have hlen : 0 < s.binaryFile.length := by
          apply List.length_pos_of_ne_nil
          rintro hnil
          simp [hnil] at hchunk
        simp only [Pc.rank]
        omega
  | recv response =>
      have hpc : s.pc = .recvChunk ∨ s.pc = .recvFinal := of_decide_eq_true henabled
      rcases hpc with hpc | hpc
      · cases hdecode : decode response with
        | none => simp [effect, State.behindTry, State.remaining, Pc.rank, hpc, hdecode]
        | some text =>
            simp only [effect, hpc, hdecode]
            split <;> simp [State.exit, State.remaining, Pc.rank, hpc]
      · simp [effect, State.behindTry, State.remaining, Pc.rank, hpc]
  | timeout =>
      have hpc : s.pc = .recvChunk ∨ s.pc = .recvFinal := of_decide_eq_true henabled
      rcases hpc with hpc | hpc <;> simp [effect, State.exit, State.remaining, Pc.rank, hpc]
  | recvError =>
      have hpc : s.pc = .recvChunk ∨ s.pc = .recvFinal := of_decide_eq_true henabled
      rcases hpc with hpc | hpc <;> simp [effect, State.behindTry, State.remaining, Pc.rank, hpc]

theorem observed_length_le {o o' : Observed} {ls : List Label} (hpos : 0 < o.worker.chunkSize)
    (hr : run observedStep o ls = some o') : ls.length ≤ o.worker.remaining := by
  have hstep : ∀ (a : Observed) l b, 0 < a.worker.chunkSize → observedStep a l = some b →
      b.worker.chunkSize = a.worker.chunkSize ∧ b.worker.remaining < a.worker.remaining := by
    intro a l b ha hb
    obtain ⟨henabled, rfl⟩ := observedStep_eq_some.mp hb
    rw [record_worker]
    exact remaining_of_step ha (step_eq_some.mpr ⟨henabled, rfl⟩)
  have hlen := length_run_le (I := fun a : Observed => 0 < a.worker.chunkSize) (C := fun _ _ => True)
    (m := fun a => a.worker.remaining) (fun a l b ha _ hb => (hstep a l b ha hb).1 ▸ ha)
    (fun a l b ha _ hb => (hstep a l b ha hb).2) hpos
    (eachStep_of_forall_mem (D := fun _ => True) fun _ _ => trivial) hr
  omega

theorem observedStep_of_not_done {o : Observed} (h : o.worker.pc ≠ .done) :
    ∃ l, (observedStep o l).isSome = true := by
  have henabled : ∃ l, enabled o.worker l = true := by
    cases hpc : o.worker.pc with
    | openFile => exact ⟨.openFile true, by simp [enabled, hpc]⟩
    | read => exact ⟨.read, by simp [enabled, hpc]⟩
    | sendall => exact ⟨.sendall true, by simp [enabled, hpc]⟩
    | recvChunk | recvFinal => exact ⟨.timeout, by simp [enabled, hpc]⟩
    | done => exact absurd hpc h
  obtain ⟨l, hl⟩ := henabled
  exact ⟨l, Option.isSome_iff_exists.mpr ⟨_, observedStep_eq_some.mpr ⟨hl, rfl⟩⟩⟩

/-- The verdict is an honest one unless something raises before the final response, and every run
comes to a verdict. -/
theorem honest_verdict_iff (file : List UInt8) {chunkSize : Nat} (hpos : 0 < chunkSize)
    (ls : List Label) :
    (Always observedStep (HonestAtEnd file) (observeStart file chunkSize) ls ↔
      EachStep observedStep (fun o l => ¬Interrupts o.worker l) (observeStart file chunkSize) ls) ∧
    ∀ o, run observedStep (observeStart file chunkSize) ls = some o →
      ls.length ≤ 3 * file.length + 3 ∧
        (o.worker.pc ≠ .done → ∃ l, (observedStep o l).isSome = true) := by
  constructor
  · refine always_iff_eachStep (I := Tracked file) (fun _ h => h.1) ?_ ?_
      ⟨fun hdone => absurd hdone (by simp [observeStart, start]), fun _ => sending_start file hpos⟩ ls
    · intro o l o' h hl hstep
      exact tracked_of_step (h.2 (not_done_of_observedStep hstep)) hl hstep
    · intro o l o' h hstep hend hl
      exact not_honest_of_interrupts (h.2 (not_done_of_observedStep hstep)) hl hstep hend
  · intro o hr
    exact ⟨observed_length_le hpos hr, observedStep_of_not_done⟩

def ackBytes : List UInt8 := [0x41, 0x43, 0x4b]

theorem honest_verdict_of_two_chunks :
    Always observedStep (HonestAtEnd [1, 2, 3]) (observeStart [1, 2, 3] 2)
      [.openFile true, .read, .sendall true, .recv ackBytes, .read, .sendall true, .recv ackBytes,
        .read, .recv []] :=
  ((honest_verdict_iff [1, 2, 3] (by decide) _).1).mpr (by decide +kernel)

/-- The connection breaks in the first chunk, and the last status is 0 for "complete". -/
theorem broken_upload_reported_complete :
    ¬Always observedStep (HonestAtEnd [1, 2, 3]) (observeStart [1, 2, 3] 2)
      [.openFile true, .read, .sendall false] := by
  intro h
  have hend : HonestAtEnd [1, 2, 3] _ := Always.last h rfl
  exact absurd (hend rfl).once (by decide)

end InfoGlobe.OtaWorker
