import InfoGlobe.Library.Ownership
import InfoGlobe.Library.ResourceLedger
import InfoGlobe.Firmware.IrLedTask
import Mathlib.Logic.Function.Basic

/-!
The heap buffers behind the display queue. Any number of producers allocate, fill and push a buffer,
and the IR task pops, reads and frees it. Allocations are numbered, so that a block is one
allocation even when the heap hands out the same address again.
-/

namespace InfoGlobe.MessageOwnership
open StepSystem ResourceLedger Ownership
universe u
variable {ι : Type u}

/-- The three places that allocate a buffer for the queue. -/
inductive Request
  | sendStringToQueue (strMsg : List UInt8) (strLen : Nat)
  | sendStringWBytesToQueue (strMsg : List UInt8) (strLen : Nat) (headerByte tailByte : UInt8)
  | doRetransmit (chunk : List UInt8)
  deriving DecidableEq

/-- What is copied into the new block. -/
def Request.buffer : Request → MsgBuffer
  | .sendStringToQueue strMsg strLen => InfoGlobe.sendStringToQueue strMsg strLen
  | .sendStringWBytesToQueue strMsg strLen headerByte tailByte =>
      InfoGlobe.sendStringWBytesToQueue strMsg strLen headerByte tailByte
  | .doRetransmit chunk => chunk

inductive Producer
  | idle
  | filling (block : Nat) (request : Request)
  | pushing (block : Nat) (data : MsgBuffer)
  deriving DecidableEq

def Producer.block : Producer → Option Nat
  | .idle => none
  | .filling block _ | .pushing block _ => some block

/-- `slots` are the pointers of the queued items, in step with the contents in `ir.displayQueue`;
`receivedBlock` is the pointer `ir_tx_task` has popped and not yet freed. -/
structure State (ι : Type u) where
  ir : IrLedTask.State
  slots : List Nat
  receivedBlock : Option Nat
  producer : ι → Producer
  heap : List (Event Nat)
  next : Nat

inductive Label (ι : Type u)
  | malloc (i : ι) (request : Request) (ok : Bool)
  | fill (i : ι)
  /-- `xQueueSend` in `push_buffer_to_queue`: it inserts, or times out on a full queue. -/
  | xQueueSend (i : ι) (inserted : Bool)
  | task
  | callback (stray : UInt8)
  deriving DecidableEq

def boot (memory : Nat → UInt8) : State ι where
  ir := IrLedTask.boot memory
  slots := []
  receivedBlock := none
  producer := fun _ => .idle
  heap := []
  next := 0

/-- What a statement of `ir_tx_task` does with the block it has popped. -/
def blockEvents (s : State ι) : List (Event Nat) :=
  match s.ir.pc with
  | .printBuffer | .memcpyMessage => s.receivedBlock.toList.map .used
  | .freeBuffer => s.receivedBlock.toList.map .released
  | _ => []

def taskStep (s : State ι) : Option (State ι) :=
  (IrLedTask.taskStep s.ir).map fun ir =>
    { s with
      ir := ir
      slots := if s.ir.pc = .popBuffer then s.slots.tail else s.slots
      receivedBlock :=
        if s.ir.pc = .popBuffer then s.slots.head?
        else if s.ir.pc = .freeBuffer then none
        else s.receivedBlock
      heap := s.heap ++ blockEvents s }

section Steps
variable [DecidableEq ι]

def State.setProducer (s : State ι) (i : ι) (p : Producer) : State ι :=
  { s with producer := Function.update s.producer i p }

def step (s : State ι) : Label ι → Option (State ι)
  | .malloc i request ok =>
      if s.producer i = .idle then
        some (if ok then
          { s.setProducer i (.filling s.next request) with
            heap := s.heap ++ [.acquired s.next]
            next := s.next + 1 }
        else s)
      else none
  | .fill i =>
      match s.producer i with
      | .filling block request =>
          some { s.setProducer i (.pushing block request.buffer) with
            heap := s.heap ++ [.used block] }
      | _ => none
  | .xQueueSend i inserted =>
      match s.producer i with
      | .pushing block data =>
          if inserted then
            (IrLedTask.step s.ir (.enqueue data)).map fun ir =>
              { s.setProducer i .idle with ir := ir, slots := s.slots ++ [block] }
          else if s.ir.displayQueue.length = displayQueueLen then some (s.setProducer i .idle)
          else none
      | _ => none
  | .task => taskStep s
  | .callback stray =>
      (IrLedTask.step s.ir (.callback stray)).map fun ir => { s with ir := ir }

end Steps

/-! ### Owners -/

inductive Owner (ι : Type u)
  | producer (i : ι)
  | slot (k : Nat)
  | irTask
  deriving DecidableEq

def Owns (s : State ι) : Owner ι → Nat → Prop
  | .producer i, b => (s.producer i).block = some b
  | .slot k, b => s.slots[k]? = some b
  | .irTask, b => s.receivedBlock = some b

/-- Every block that is allocated and not freed has exactly one owner, and no block is freed
twice. -/
structure OwnedOnce (s : State ι) : Prop where
  owner : ∀ b ∈ held s.heap, ∃! o, Owns s o b
  freed : ∀ b, s.heap.count (.released b) ≤ 1

/-- No `xQueueSend` times out. -/
def Inserts : Label ι → Prop
  | .xQueueSend _ inserted => inserted = true
  | .malloc _ _ _ | .fill _ | .task | .callback _ => True

instance : DecidablePred (Inserts (ι := ι))
  | .xQueueSend _ inserted => inferInstanceAs (Decidable (inserted = true))
  | .malloc _ _ _ | .fill _ | .task | .callback _ => isTrue trivial

/-! ### The statements of the IR task -/

/-- Where `ir_tx_task` is between a pop and the free that belongs to it. -/
def holdsBuffer : IrLedTask.TaskPc → Bool
  | .delay | .printBuffer | .memsetMessage | .setTxLen | .setTxByteIndex | .setTxBitIndex
  | .memcpyMessage | .startTimer | .logBegin | .freeBuffer => true
  | .ledcChannelConfig | .initalizeMessage | .startTimerBoot | .testTxLen | .setDutyOff
  | .updateDutyOff | .stopTimer | .logComplete | .popBuffer | .aborted => false

/-- The queue gets shorter at the pop alone, and the task is between pop and free until it frees. -/
theorem taskStep_place {s t : IrLedTask.State} (hs : IrLedTask.TimerAgrees s)
    (h : IrLedTask.taskStep s = some t) :
    (s.pc = .popBuffer ∧ s.displayQueue = t.received :: t.displayQueue ∧ t.pc = .delay) ∨
      (s.pc = .freeBuffer ∧ t.displayQueue = s.displayQueue ∧ t.pc = .testTxLen) ∨
      (s.pc ≠ .popBuffer ∧ s.pc ≠ .freeBuffer ∧ t.displayQueue = s.displayQueue ∧
        holdsBuffer t.pc = holdsBuffer s.pc) := by
  have hrun := hs.running
  cases hpc : s.pc
  all_goals
    simp only [IrLedTask.taskStep, hpc, IrLedTask.espTimerStartPeriodic,
      IrLedTask.espTimerStop] at h
    simp only [hpc, IrLedTask.timerOn] at hrun
  case aborted => exact absurd hpc hs.live
  case popBuffer =>
    cases hq : s.displayQueue with
    | nil => simp [hq] at h
    | cons b q =>
        simp only [hq] at h
        obtain rfl := Option.some.inj h
        exact .inl ⟨rfl, rfl, rfl⟩
  case freeBuffer =>
    obtain rfl := Option.some.inj h
    exact .inr (.inl ⟨rfl, rfl, rfl⟩)
  all_goals
    refine .inr (.inr ⟨IrLedTask.TaskPc.noConfusion, IrLedTask.TaskPc.noConfusion, ?_⟩)
  case testTxLen =>
    obtain rfl := Option.some.inj h
    split
    · exact ⟨rfl, rfl⟩
    · exact ⟨rfl, by rw [hpc]⟩
  case startTimerBoot | startTimer | stopTimer =>
    simp only [hrun] at h
    obtain rfl := Option.some.inj h
    exact ⟨rfl, rfl⟩
  all_goals
    obtain rfl := Option.some.inj h
    exact ⟨rfl, rfl⟩

/-! ### The account -/

structure Kept (s : State ι) : Prop where
  exact : Exact (held s.heap) (Owns s)
  disciplined : Disciplined s.heap
  /-- The blocks below `next` have been allocated, each once. -/
  born : ∀ b, s.heap.count (.acquired b) = if b < s.next then 1 else 0
  parallel : s.slots.length = s.ir.displayQueue.length
  popped : s.receivedBlock.isSome = holdsBuffer s.ir.pc
  timer : IrLedTask.TimerAgrees s.ir

theorem kept_boot (memory : Nat → UInt8) : Kept (boot memory : State ι) := by
  refine ⟨⟨?_, ?_⟩, disciplined_nil, fun b => rfl, rfl, rfl, IrLedTask.timerAgrees_boot memory⟩
  · intro b
    refine iff_of_false (Finset.notMem_empty b) ?_
    rintro ⟨o, ho⟩
    cases o <;> simp [Owns, boot, Producer.block] at ho
  · intro o p b ho
    cases o <;> simp [Owns, boot, Producer.block] at ho

theorem Kept.ownedOnce {s : State ι} (h : Kept s) : OwnedOnce s := by
  refine ⟨fun b hb => h.exact.existsUnique hb, fun b => ?_⟩
  have hcount := count_acquired h.disciplined b
  rw [h.born] at hcount
  split at hcount <;> omega

theorem Kept.next_not_held {s : State ι} (h : Kept s) : s.next ∉ held s.heap := by
  intro hheld
  have hcount := count_acquired h.disciplined s.next
  rw [h.born, if_neg (Nat.lt_irrefl _), if_pos hheld] at hcount
  omega

/-- Only an allocation brings a block into being. -/
theorem Kept.born_append {s : State ι} (h : Kept s) {e : Event Nat} (he : ∀ b, e ≠ .acquired b)
    (b : Nat) : (s.heap ++ [e]).count (.acquired b) = if b < s.next then 1 else 0 := by
  have hnone : [e].count (.acquired b) = 0 := by simp [he b]
  rw [List.count_append, hnone]
  exact h.born b

/-- Reading a block that has an owner changes nothing in the account. -/
theorem Kept.used {s : State ι} (h : Kept s) {o : Owner ι} {b : Nat} (hb : Owns s o b) :
    Disciplined (s.heap ++ [.used b]) ∧ held (s.heap ++ [.used b]) = held s.heap := by
  refine ⟨disciplined_append_singleton.mpr ⟨h.disciplined, ?_⟩, held_append_singleton _ _⟩
  exact (h.exact.mem_iff b).mpr ⟨o, hb⟩

/-- The pop hands the first item to the task, and the others move up. -/
def moveUp : Owner ι → Owner ι
  | .slot 0 => .irTask
  | .slot (k + 1) => .slot k
  | o => o

theorem kept_pop {s : State ι} (h : Kept s) (hpc : s.ir.pc = .popBuffer) {b : MsgBuffer}
    {ir : IrLedTask.State} (hqueue : s.ir.displayQueue = b :: ir.displayQueue)
    (hpc' : ir.pc = .delay) (htimer : IrLedTask.TimerAgrees ir) :
    Kept { s with ir := ir, slots := s.slots.tail, receivedBlock := s.slots.head? } := by
  have hnone : s.receivedBlock = none := by simpa [hpc, holdsBuffer] using h.popped
  have hlen := h.parallel
  rw [hqueue, List.length_cons] at hlen
  obtain ⟨block, rest, hslots⟩ := List.exists_cons_of_length_eq_add_one hlen
  refine ⟨?_, h.disciplined, h.born, ?_, ?_, htimer⟩
  · refine h.exact.handover moveUp ?_
    intro o c
    constructor
    · intro ho
      cases o with
      | producer i => exact ⟨.producer i, ho, rfl⟩
      | slot k => exact ⟨.slot (k + 1), by simpa [Owns, hslots] using ho, rfl⟩
      | irTask => exact ⟨.slot 0, by simpa [Owns, hslots] using ho, rfl⟩
    · rintro ⟨p, hp, rfl⟩
      cases p with
      | producer i => exact hp
      | slot k => cases k <;> simpa [Owns, moveUp, hslots] using hp
      | irTask => exact absurd (hnone.symm.trans hp) (Option.some_ne_none c).symm
  · simpa [hslots] using hlen
  · simp [hslots, hpc', holdsBuffer]

theorem kept_free {s : State ι} (h : Kept s) {block : Nat} (hblock : s.receivedBlock = some block)
    {ir : IrLedTask.State} (hqueue : ir.displayQueue = s.ir.displayQueue)
    (hpc' : ir.pc = .testTxLen) (htimer : IrLedTask.TimerAgrees ir) :
    Kept { s with ir := ir, receivedBlock := none, heap := s.heap ++ [.released block] } := by
  have hown : Owns s .irTask block := hblock
  refine ⟨?_, ?_, h.born_append (by simp), ?_, ?_, htimer⟩
  · rw [held_append_singleton]
    refine h.exact.release ?_
    intro p c
    cases p with
    | irTask => simp [Owns, hblock, eq_comm]
    | producer i => exact h.exact.owns_iff_of_ne (p := .producer i) hown (by simp) c
    | slot k => exact h.exact.owns_iff_of_ne (p := .slot k) hown (by simp) c
  · exact disciplined_append_singleton.mpr ⟨h.disciplined, (h.exact.mem_iff block).mpr ⟨_, hown⟩⟩
  · rw [hqueue]
    exact h.parallel
  · rw [hpc']
    rfl

theorem kept_read {s : State ι} (h : Kept s) {events : List (Event Nat)}
    (hevents : events = [] ∨ ∃ b, s.receivedBlock = some b ∧ events = [.used b])
    {ir : IrLedTask.State} (hqueue : ir.displayQueue = s.ir.displayQueue)
    (hpc' : holdsBuffer ir.pc = holdsBuffer s.ir.pc) (htimer : IrLedTask.TimerAgrees ir) :
    Kept { s with ir := ir, heap := s.heap ++ events } := by
  have hparallel : s.slots.length = ir.displayQueue.length := by
    rw [hqueue]
    exact h.parallel
  have hpopped : s.receivedBlock.isSome = holdsBuffer ir.pc := by
    rw [hpc']
    exact h.popped
  rcases hevents with rfl | ⟨b, hb, rfl⟩
  · simp only [List.append_nil]
    exact ⟨h.exact, h.disciplined, h.born, hparallel, hpopped, htimer⟩
  · have hown : Owns s .irTask b := hb
    obtain ⟨hdisciplined, hheld⟩ := h.used hown
    refine ⟨?_, hdisciplined, h.born_append (by simp), hparallel, hpopped, htimer⟩
    rw [hheld]
    exact h.exact

theorem blockEvents_cases {s : State ι} (h : s.ir.pc ≠ .freeBuffer) :
    blockEvents s = [] ∨ ∃ b, s.receivedBlock = some b ∧ blockEvents s = [.used b] := by
  unfold blockEvents
  cases hpc : s.ir.pc with
  | freeBuffer => exact absurd hpc h
  | printBuffer | memcpyMessage =>
      cases hb : s.receivedBlock with
      | none => exact .inl rfl
      | some b => exact .inr ⟨b, rfl, rfl⟩
  | _ => exact .inl rfl

theorem kept_task {s t : State ι} (h : Kept s) (hstep : taskStep s = some t) : Kept t := by
  obtain ⟨ir, hir, rfl⟩ := Option.map_eq_some_iff.mp hstep
  have htimer := IrLedTask.taskStep_timerAgrees h.timer hir
  rcases taskStep_place h.timer hir with ⟨hpc, hqueue, hpc'⟩ | ⟨hpc, hqueue, hpc'⟩ |
    ⟨hpop, hfree, hqueue, hpc'⟩
  · simpa [hpc, blockEvents] using kept_pop h hpc hqueue hpc' htimer
  · obtain ⟨block, hblock⟩ := Option.isSome_iff_exists.mp (h.popped.trans (by rw [hpc]; rfl))
    simpa [hpc, hblock, blockEvents] using kept_free h hblock hqueue hpc' htimer
  · simpa [hpop, hfree] using kept_read h (blockEvents_cases hfree) hqueue hpc' htimer

section Keeping
variable [DecidableEq ι]

theorem owns_producer_update {s t : State ι} {i : ι} {p : Producer}
    (h : t.producer = Function.update s.producer i p) (j : ι) (b : Nat) :
    Owns t (.producer j) b ↔ if j = i then p.block = some b else Owns s (.producer j) b := by
  simp only [Owns, h, Function.update_apply]
  split <;> rfl

theorem kept_malloc {s : State ι} (h : Kept s) {i : ι} (hidle : s.producer i = .idle)
    (request : Request) :
    Kept { s.setProducer i (.filling s.next request) with
      heap := s.heap ++ [.acquired s.next]
      next := s.next + 1 } := by
  refine ⟨?_, ?_, ?_, h.parallel, h.popped, h.timer⟩
  · rw [held_append_singleton]
    refine h.exact.acquire (o := .producer i) h.next_not_held ?_
    intro p c
    cases p with
    | producer j =>
        rw [owns_producer_update rfl]
        by_cases hj : j = i
        · subst hj
          simp [Owns, hidle, Producer.block, eq_comm]
        · simp [hj]
    | slot k => simp [Owns, State.setProducer]
    | irTask => simp [Owns, State.setProducer]
  · exact disciplined_append_singleton.mpr ⟨h.disciplined, h.next_not_held⟩
  · intro b
    simp only [List.count_append, h.born b]
    by_cases hb : b = s.next
    · subst hb
      simp
    · have hne : ¬s.next = b := fun heq => hb heq.symm
      have hlt : b < s.next + 1 ↔ b < s.next := by omega
      simp [hne, hlt]

theorem kept_fill {s : State ι} (h : Kept s) {i : ι} {block : Nat} {request : Request}
    (hfilling : s.producer i = .filling block request) :
    Kept { s.setProducer i (.pushing block request.buffer) with
      heap := s.heap ++ [.used block] } := by
  have hown : Owns s (.producer i) block := by simp [Owns, hfilling, Producer.block]
  obtain ⟨hdisciplined, hheld⟩ := h.used hown
  refine ⟨?_, hdisciplined, h.born_append (by simp), h.parallel, h.popped, h.timer⟩
  rw [hheld]
  refine h.exact.handover id ?_
  intro o b
  cases o with
  | producer j =>
      rw [owns_producer_update rfl]
      by_cases hj : j = i
      · subst hj
        simp [Owns, hfilling, Producer.block]
      · simp [hj]
  | slot k => simp [Owns, State.setProducer]
  | irTask => simp [Owns, State.setProducer]

theorem kept_push {s : State ι} (h : Kept s) {i : ι} {block : Nat} {data : MsgBuffer}
    (hpushing : s.producer i = .pushing block data) {ir : IrLedTask.State}
    (hir : IrLedTask.step s.ir (.enqueue data) = some ir) :
    Kept { s.setProducer i .idle with ir := ir, slots := s.slots ++ [block] } := by
  have htimer := IrLedTask.step_timerAgrees _ _ _ h.timer hir
  obtain ⟨_, rfl⟩ := IrLedTask.step_enqueue hir
  refine ⟨?_, h.disciplined, h.born, ?_, h.popped, htimer⟩
  · refine h.exact.transfer (o := .producer i) (r := .slot s.slots.length) ?_
    intro p b
    cases p with
    | producer j =>
        rw [owns_producer_update rfl]
        by_cases hj : j = i
        · subst hj
          simp [Producer.block]
        · simp [hj]
    | slot k =>
        simp only [Owns, hpushing, Producer.block]
        rcases Nat.lt_trichotomy k s.slots.length with hk | rfl | hk
        · simp [List.getElem?_append_left hk, Nat.ne_of_lt hk]
        · simp
        · have hlong : (s.slots ++ [block]).length ≤ k := by
            rw [List.length_append]
            exact hk
          have hnone : s.slots[k]? = none := List.getElem?_eq_none (Nat.le_of_lt hk)
          simp [List.getElem?_eq_none hlong, hnone, (Nat.ne_of_lt hk).symm]
    | irTask => simp [Owns, State.setProducer]
  · simpa [State.setProducer] using h.parallel

theorem step_fill {s t : State ι} {i : ι} (h : step s (.fill i) = some t) :
    ∃ block request, s.producer i = .filling block request ∧
      t = { s.setProducer i (.pushing block request.buffer) with
        heap := s.heap ++ [.used block] } := by
  cases hproducer : s.producer i with
  | filling block request =>
      simp only [step, hproducer] at h
      exact ⟨block, request, rfl, (Option.some.inj h).symm⟩
  | idle | pushing _ _ =>
      simp only [step, hproducer] at h
      exact absurd h (Option.some_ne_none t).symm

theorem step_xQueueSend {s t : State ι} {i : ι} {inserted : Bool}
    (h : step s (.xQueueSend i inserted) = some t) :
    ∃ block data, s.producer i = .pushing block data ∧
      (if inserted then
        (IrLedTask.step s.ir (.enqueue data)).map fun ir =>
          { s.setProducer i .idle with ir := ir, slots := s.slots ++ [block] }
      else if s.ir.displayQueue.length = displayQueueLen then some (s.setProducer i .idle)
      else none) = some t := by
  cases hproducer : s.producer i with
  | pushing block data =>
      simp only [step, hproducer] at h
      exact ⟨block, data, rfl, h⟩
  | idle | filling _ _ =>
      simp only [step, hproducer] at h
      exact absurd h (Option.some_ne_none t).symm

/-- Behind a time-out the block of the producer belongs to nobody. -/
theorem owns_timeout {s : State ι} (h : Kept s) {i : ι} {block : Nat} {data : MsgBuffer}
    (hpushing : s.producer i = .pushing block data) (p : Owner ι) (c : Nat) :
    Owns (s.setProducer i .idle) p c ↔ Owns s p c ∧ c ≠ block := by
  have hown : Owns s (.producer i) block := by simp [Owns, hpushing, Producer.block]
  cases p with
  | producer j =>
      rw [owns_producer_update rfl]
      by_cases hj : j = i
      · subst hj
        simp [Owns, hpushing, Producer.block, eq_comm]
      · rw [if_neg hj]
        exact h.exact.owns_iff_of_ne hown (by simp [hj]) c
  | slot k => exact h.exact.owns_iff_of_ne (p := .slot k) hown (by simp) c
  | irTask => exact h.exact.owns_iff_of_ne (p := .irTask) hown (by simp) c

theorem kept_step (s : State ι) (l : Label ι) (t : State ι) (h : Kept s) (hl : Inserts l)
    (hstep : step s l = some t) : Kept t := by
  cases l with
  | malloc i request ok =>
      simp only [step, Option.ite_none_right_eq_some, Option.some.injEq] at hstep
      obtain ⟨hidle, rfl⟩ := hstep
      cases ok with
      | false => exact h
      | true => exact kept_malloc h hidle request
  | fill i =>
      obtain ⟨block, request, hfilling, rfl⟩ := step_fill hstep
      exact kept_fill h hfilling
  | xQueueSend i inserted =>
      obtain rfl : inserted = true := hl
      obtain ⟨block, data, hpushing, hsent⟩ := step_xQueueSend hstep
      obtain ⟨ir, hir, rfl⟩ := Option.map_eq_some_iff.mp hsent
      exact kept_push h hpushing hir
  | task => exact kept_task h hstep
  | callback stray =>
      obtain ⟨ir, hir, rfl⟩ := Option.map_eq_some_iff.mp hstep
      have htimer := IrLedTask.step_timerAgrees _ _ _ h.timer hir
      obtain ⟨_, rfl⟩ := IrLedTask.step_callback hir
      have hparallel : s.slots.length = (IrLedTask.timerCallback stray s.ir).displayQueue.length := by
        simpa using h.parallel
      exact ⟨h.exact, h.disciplined, h.born, hparallel, by simpa using h.popped, htimer⟩

/-- A push that times out forgets the block its producer has allocated. -/
theorem inserts_of_ownedOnce (s : State ι) (l : Label ι) (t : State ι) (h : Kept s)
    (hstep : step s l = some t) (ht : OwnedOnce t) : Inserts l := by
  cases l with
  | xQueueSend i inserted =>
      by_contra htimeout
      obtain rfl : inserted = false := by simpa [Inserts] using htimeout
      obtain ⟨block, data, hpushing, hsent⟩ := step_xQueueSend hstep
      simp only [Bool.false_eq_true, if_false, Option.ite_none_right_eq_some,
        Option.some.injEq] at hsent
      obtain ⟨_, rfl⟩ := hsent
      have hheld : block ∈ held s.heap :=
        (h.exact.mem_iff block).mpr ⟨.producer i, by simp [Owns, hpushing, Producer.block]⟩
      exact not_owned_of_forgotten (owns_timeout h hpushing) (ht.owner block hheld).exists
  | malloc _ _ _ | fill _ | task | callback _ => trivial

/-- Every block has exactly one owner and is freed at most once, in exactly the runs in which no
push times out. -/
theorem owned_once_iff (memory : Nat → UInt8) (ls : List (Label ι)) :
    Always step OwnedOnce (boot memory) ls ↔
      EachStep step (fun _ l => Inserts l) (boot memory) ls :=
  always_iff_eachStep (fun _ h => h.ownedOnce) kept_step inserts_of_ownedOnce
    (kept_boot memory) ls

end Keeping

/-- A session pushes eleven chunks before the IR task takes the first. -/
def fullQueueRun : List (Label Unit) :=
  let push (inserted : Bool) : List (Label Unit) :=
    [.malloc () (.doRetransmit [0x61]) true, .fill (), .xQueueSend () inserted]
  (List.replicate displayQueueLen (push true)).flatten ++ push false

theorem full_queue_forgets_block :
    ¬Always step OwnedOnce (boot fun _ => 0 : State Unit) fullQueueRun := by
  intro h
  have hrun : ((run step (boot fun _ => 0 : State Unit) fullQueueRun).map fun s =>
      (decide (10 ∈ held s.heap), s.slots, s.receivedBlock, s.producer ())) =
        some (true, List.range 10, none, .idle) := by decide +kernel
  obtain ⟨s, hs, hfields⟩ := Option.map_eq_some_iff.mp hrun
  simp only [Prod.mk.injEq, decide_eq_true_eq] at hfields
  obtain ⟨hheld, hslots, hreceived, hproducer⟩ := hfields
  obtain ⟨o, ho⟩ := ((h.last hs).owner 10 hheld).exists
  cases o with
  | producer i => simp [Owns, hproducer, Producer.block] at ho
  | slot k =>
      have hmem := List.mem_of_getElem? ho
      rw [hslots] at hmem
      exact absurd hmem (by decide)
  | irTask => simp [Owns, hreceived] at ho

end InfoGlobe.MessageOwnership
