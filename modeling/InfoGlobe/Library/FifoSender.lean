import InfoGlobe.Library.StepSystem
import Mathlib.Data.List.Basic

/-!
The abstract machine that sends queued messages in order, one symbol at a time. Between two
messages the line may carry filler symbols. What a receiver can rely on is a property of its
traces, and an implementation inherits it by refining the machine.
-/

namespace FifoSender
open StepSystem
universe u v
variable {μ : Type u} {β : Type v}

inductive Event (μ : Type u) (β : Type v)
  | enqueued (m : μ)
  | loaded (m : μ)
  | emitted (b : β)
  deriving DecidableEq

inductive Label (μ : Type u) (β : Type v)
  | enqueue (m : μ)
  | load
  | emit
  | filler (b : β)

structure State (μ : Type u) (β : Type v) where
  queue : List μ
  remaining : List β

def initial : State μ β := { queue := [], remaining := [] }

def step (encode : μ → List β) : State μ β → Label μ β → Option (State μ β)
  | s, .enqueue m => some { s with queue := s.queue ++ [m] }
  | ⟨m :: q, []⟩, .load => some { queue := q, remaining := encode m }
  | ⟨q, _ :: bs⟩, .emit => some { queue := q, remaining := bs }
  | ⟨q, []⟩, .filler _ => some { queue := q, remaining := [] }
  | _, _ => none

def observe : State μ β → Label μ β → List (Event μ β)
  | _, .enqueue m => [.enqueued m]
  | ⟨m :: _, _⟩, .load => [.loaded m]
  | ⟨_, b :: _⟩, .emit => [.emitted b]
  | _, .filler b => [.emitted b]
  | _, _ => []

/-! ### What a trace says about the sessions -/

def enqueuedOf (t : List (Event μ β)) : List μ :=
  t.filterMap fun e => match e with
    | .enqueued m => some m
    | _ => none

def record : List (μ × List β) → Event μ β → List (μ × List β)
  | ss, .enqueued _ => ss
  | ss, .loaded m => (m, []) :: ss
  | (m, bs) :: ss, .emitted b => (m, bs ++ [b]) :: ss
  | [], .emitted _ => []

/-- The messages loaded so far, newest first, each with the symbols emitted since its load. -/
def sessions (t : List (Event μ β)) : List (μ × List β) := t.foldl record []

/-- Every loaded message was sent in full, in queue order; the newest one as far as it has got. -/
structure Delivered (encode : μ → List β) (t : List (Event μ β)) : Prop where
  inOrder : (sessions t).reverse.map Prod.fst <+: enqueuedOf t
  earlier : ∀ p ∈ (sessions t).tail, encode p.1 <+: p.2
  current : ∀ p ∈ (sessions t).head?, encode p.1 <+: p.2 ∨ p.2 <+: encode p.1

section Delivery
variable {encode : μ → List β}

theorem sessions_append (t : List (Event μ β)) (e : Event μ β) :
    sessions (t ++ [e]) = record (sessions t) e := by
  simp [sessions]

theorem enqueuedOf_append (t u : List (Event μ β)) :
    enqueuedOf (t ++ u) = enqueuedOf t ++ enqueuedOf u := by
  simp [enqueuedOf]

/-- The newest session together with what remains of its message is the whole message. -/
def Progress (encode : μ → List β) (remaining : List β) : List (μ × List β) → Prop
  | [] => remaining = []
  | (m, bs) :: ss =>
      ((encode m <+: bs ∧ remaining = []) ∨ bs ++ remaining = encode m) ∧
        ∀ p ∈ ss, encode p.1 <+: p.2

structure Sending (encode : μ → List β) (s : State μ β) (past : List (Event μ β)) : Prop where
  fifo : (sessions past).reverse.map Prod.fst ++ s.queue = enqueuedOf past
  progress : Progress encode s.remaining (sessions past)

theorem sending_initial : Sending encode (initial : State μ β) [] := ⟨rfl, rfl⟩

theorem Progress.complete {ss : List (μ × List β)} (h : Progress encode [] ss) :
    ∀ p ∈ ss, encode p.1 <+: p.2 := by
  cases ss with
  | nil => simp
  | cons p ss =>
      obtain ⟨m, bs⟩ := p
      obtain ⟨hm, hss⟩ := h
      have hbs : encode m <+: bs := by
        rcases hm with ⟨hm, _⟩ | hm
        · exact hm
        · rw [List.append_nil] at hm
          exact hm ▸ List.prefix_refl _
      intro q hq
      rcases List.mem_cons.mp hq with rfl | hq
      · exact hbs
      · exact hss q hq

theorem Progress.emit {b : β} {bs : List β} {ss : List (μ × List β)}
    (h : Progress encode (b :: bs) ss) : Progress encode bs (record ss (.emitted b)) := by
  cases ss with
  | nil => exact absurd h (List.cons_ne_nil b bs)
  | cons p ss =>
      obtain ⟨hm, hss⟩ := h
      refine ⟨.inr ?_, hss⟩
      rcases hm with ⟨_, hnil⟩ | hm
      · exact absurd hnil (List.cons_ne_nil b bs)
      · simpa using hm

theorem Progress.filler {ss : List (μ × List β)} (h : Progress encode [] ss) (b : β) :
    Progress encode [] (record ss (.emitted b)) := by
  cases ss with
  | nil => rfl
  | cons p ss =>
      refine ⟨.inl ⟨?_, rfl⟩, h.2⟩
      exact (h.complete p List.mem_cons_self).trans (List.prefix_append _ _)

theorem sending_step {s t : State μ β} {l : Label μ β} {past : List (Event μ β)}
    (h : Sending encode s past) (hstep : step encode s l = some t) :
    Sending encode t (past ++ observe s l) := by
  obtain ⟨queue, remaining⟩ := s
  obtain ⟨fifo, progress⟩ := h
  cases l with
  | enqueue m =>
      obtain rfl := Option.some.inj hstep
      refine ⟨?_, ?_⟩
      · simp only [observe, sessions_append, record, enqueuedOf_append]
        rw [← List.append_assoc, fifo]
        rfl
      · simpa only [observe, sessions_append, record] using progress
  | load =>
      cases queue with
      | nil => cases remaining <;> exact absurd hstep (by simp [step])
      | cons m q =>
          cases remaining with
          | cons b bs => exact absurd hstep (by simp [step])
          | nil =>
              obtain rfl := Option.some.inj hstep
              refine ⟨?_, ?_⟩
              · simp only [observe, sessions_append, record, enqueuedOf_append]
                simpa [enqueuedOf] using fifo
              · simp only [observe, sessions_append, record]
                exact ⟨.inr (List.nil_append _), progress.complete⟩
  | emit =>
      cases remaining with
      | nil => exact absurd hstep (by simp [step])
      | cons b bs =>
          obtain rfl := Option.some.inj hstep
          refine ⟨?_, ?_⟩
          · have hfst : (record (sessions past) (.emitted b)).map Prod.fst =
                (sessions past).map Prod.fst := by
              cases sessions past <;> rfl
            simp only [observe, sessions_append, enqueuedOf_append, List.map_reverse, hfst]
            simpa [enqueuedOf] using fifo
          · simpa only [observe, sessions_append] using progress.emit
  | filler b =>
      cases remaining with
      | cons b bs => exact absurd hstep (by simp [step])
      | nil =>
          obtain rfl := Option.some.inj hstep
          refine ⟨?_, ?_⟩
          · have hfst : (record (sessions past) (.emitted b)).map Prod.fst =
                (sessions past).map Prod.fst := by
              cases sessions past <;> rfl
            simp only [observe, sessions_append, enqueuedOf_append, List.map_reverse, hfst]
            simpa [enqueuedOf] using fifo
          · simpa only [observe, sessions_append] using progress.filler b

theorem Sending.delivered {s : State μ β} {t : List (Event μ β)} (h : Sending encode s t) :
    Delivered encode t := by
  refine ⟨⟨s.queue, h.fifo⟩, ?_, ?_⟩
  · have hp := h.progress
    cases hs : sessions t with
    | nil => simp
    | cons p ss =>
        rw [hs] at hp
        exact hp.2
  · have hp := h.progress
    cases hs : sessions t with
    | nil => simp
    | cons p ss =>
        rw [hs] at hp
        intro q hq
        obtain rfl : p = q := Option.some.inj hq
        rcases hp.1 with hp | hp
        · exact .inl hp.1
        · exact .inr ⟨s.remaining, hp⟩

/-- Whatever the machine does, its trace delivers the queued messages in order. -/
theorem trace_delivered (encode : μ → List β) (ls : List (Label μ β)) :
    Delivered encode (trace (step encode) observe initial ls) := by
  obtain ⟨s, hs⟩ := trace_invariant (I := Sending encode)
    (fun _ _ _ _ h hstep => sending_step h hstep) sending_initial ls
  exact hs.delivered

end Delivery

end FifoSender
