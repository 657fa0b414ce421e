import Mathlib.Logic.Basic

/-!
Finite runs of labelled systems. A step is a partial function of a state and a label; the label
carries every choice of the environment, so a run is a list of labels. A label that is not enabled
ends the run, and the predicates below speak of the steps before it. Preservation of an invariant
is proved once here, with and without a condition on the steps, and so is the transport of traces
along a simulation.
-/

namespace StepSystem
universe u v w x y
variable {σ : Type u} {ℓ : Type v}

def run (step : σ → ℓ → Option σ) : σ → List ℓ → Option σ
  | s, [] => some s
  | s, l :: ls => (step s l).bind fun t => run step t ls

/-- `P` holds in every state the run visits, the first one included. -/
def Always (step : σ → ℓ → Option σ) (P : σ → Prop) : σ → List ℓ → Prop
  | s, [] => P s
  | s, l :: ls => P s ∧ ∀ t, step s l = some t → Always step P t ls

/-- `C` holds of every step the run takes, seen from the state before it. -/
def EachStep (step : σ → ℓ → Option σ) (C : σ → ℓ → Prop) : σ → List ℓ → Prop
  | _, [] => True
  | s, l :: ls => ∀ t, step s l = some t → C s l ∧ EachStep step C t ls

/-- Some step the run takes satisfies `C`. -/
def SomeStep (step : σ → ℓ → Option σ) (C : σ → ℓ → Prop) : σ → List ℓ → Prop
  | _, [] => False
  | s, l :: ls => ∃ t, step s l = some t ∧ (C s l ∨ SomeStep step C t ls)

/-- What an observer of the steps records along the run. -/
def trace {ε : Type w} (step : σ → ℓ → Option σ) (obs : σ → ℓ → List ε) : σ → List ℓ → List ε
  | _, [] => []
  | s, l :: ls => (step s l).elim [] fun t => obs s l ++ trace step obs t ls

section Runs
variable {step : σ → ℓ → Option σ}

@[simp] theorem run_nil (s : σ) : run step s [] = some s := rfl

theorem run_cons (s : σ) (l : ℓ) (ls : List ℓ) :
    run step s (l :: ls) = (step s l).bind fun t => run step t ls := rfl

theorem run_cons_eq_some {s u : σ} {l : ℓ} {ls : List ℓ} :
    run step s (l :: ls) = some u ↔ ∃ t, step s l = some t ∧ run step t ls = some u :=
  Option.bind_eq_some_iff

theorem run_append (s : σ) (ls ms : List ℓ) :
    run step s (ls ++ ms) = (run step s ls).bind fun t => run step t ms := by
  induction ls generalizing s with
  | nil => rfl
  | cons l ls ih =>
      rw [List.cons_append, run_cons, run_cons, Option.bind_assoc]
      exact congrArg (step s l).bind (funext ih)

theorem run_append_singleton_eq_some {s u : σ} {ls : List ℓ} {l : ℓ} :
    run step s (ls ++ [l]) = some u ↔ ∃ t, run step s ls = some t ∧ step t l = some u := by
  simp [run_append, run_cons, Option.bind_eq_some_iff]

theorem run_append_of_run {s t : σ} {ls : List ℓ} (h : run step s ls = some t) (ms : List ℓ) :
    run step s (ls ++ ms) = run step t ms := by
  rw [run_append, h, Option.bind_some]

theorem Always.head {P : σ → Prop} {s : σ} {ls : List ℓ} (h : Always step P s ls) : P s := by
  cases ls with
  | nil => exact h
  | cons l ls => exact h.1

theorem Always.last {P : σ → Prop} {s t : σ} {ls : List ℓ} (h : Always step P s ls)
    (hr : run step s ls = some t) : P t := by
  induction ls generalizing s with
  | nil =>
      obtain rfl : s = t := Option.some.inj hr
      exact h
  | cons l ls ih =>
      obtain ⟨u, hu, hr⟩ := run_cons_eq_some.mp hr
      exact ih (h.2 u hu) hr

theorem Always.mono {P Q : σ → Prop} {s : σ} {ls : List ℓ} (h : Always step P s ls)
    (himp : ∀ s, P s → Q s) : Always step Q s ls := by
  induction ls generalizing s with
  | nil => exact himp s h
  | cons l ls ih => exact ⟨himp s h.1, fun t ht => ih (h.2 t ht)⟩

theorem Always.and {P Q : σ → Prop} {s : σ} {ls : List ℓ} (hp : Always step P s ls)
    (hq : Always step Q s ls) : Always step (fun s => P s ∧ Q s) s ls := by
  induction ls generalizing s with
  | nil => exact ⟨hp, hq⟩
  | cons l ls ih => exact ⟨⟨hp.1, hq.1⟩, fun t ht => ih (hp.2 t ht) (hq.2 t ht)⟩

theorem eachStep_cons_of_step {C : σ → ℓ → Prop} {s t : σ} {l : ℓ} (h : step s l = some t)
    (ls : List ℓ) : EachStep step C s (l :: ls) ↔ C s l ∧ EachStep step C t ls := by
  constructor
  · intro hc
    exact hc t h
  · intro hc u hu
    obtain rfl : t = u := Option.some.inj (h.symm.trans hu)
    exact hc

theorem EachStep.of_run {C : σ → ℓ → Prop} {s t u : σ} {l : ℓ} {ls ms : List ℓ}
    (h : EachStep step C s (ls ++ l :: ms)) (hr : run step s ls = some t)
    (hstep : step t l = some u) : C t l := by
  induction ls generalizing s with
  | nil =>
      obtain rfl : s = t := Option.some.inj hr
      exact (h u hstep).1
  | cons m ls ih =>
      obtain ⟨v, hv, hr⟩ := run_cons_eq_some.mp hr
      exact ih (h v hv).2 hr

/-- Where not every step satisfies `C`, some step that the run takes does not. -/
theorem exists_of_not_eachStep {C : σ → ℓ → Prop} {s : σ} {ls : List ℓ}
    (h : ¬EachStep step C s ls) :
    ∃ ms l ns t u, ls = ms ++ l :: ns ∧ run step s ms = some t ∧ step t l = some u ∧ ¬C t l := by
  induction ls generalizing s with
  | nil => exact absurd trivial h
  | cons l ls ih =>
      cases hstep : step s l with
      | none => exact absurd (fun t ht => absurd (hstep.symm.trans ht) (by simp)) h
      | some u =>
          rw [eachStep_cons_of_step hstep, not_and_or] at h
          rcases h with hc | hrest
          · exact ⟨[], l, ls, s, u, rfl, rfl, hstep, hc⟩
          · obtain ⟨ms, m, ns, t, v, rfl, hrun, hm, hc⟩ := ih hrest
            exact ⟨l :: ms, m, ns, t, v, rfl, run_cons_eq_some.mpr ⟨u, hstep, hrun⟩, hm, hc⟩

theorem eachStep_of_forall_mem {D : ℓ → Prop} {s : σ} {ls : List ℓ} (h : ∀ l ∈ ls, D l) :
    EachStep step (fun _ l => D l) s ls := by
  induction ls generalizing s with
  | nil => trivial
  | cons l ls ih =>
      intro t _
      exact ⟨h l List.mem_cons_self, ih fun m hm => h m (List.mem_cons_of_mem l hm)⟩

instance EachStep.decidable (step : σ → ℓ → Option σ) (C : σ → ℓ → Prop)
    [∀ s l, Decidable (C s l)] : ∀ s ls, Decidable (EachStep step C s ls)
  | _, [] => isTrue trivial
  | s, l :: ls =>
      match h : step s l with
      | none => isTrue fun t ht => absurd (h.symm.trans ht) (Option.some_ne_none t).symm
      | some t =>
          have := EachStep.decidable step C t ls
          decidable_of_iff (C s l ∧ EachStep step C t ls) (eachStep_cons_of_step h ls).symm

/-- A run whose steps all lower a measure is no longer than the measure at its start. -/
theorem length_run_le {I : σ → Prop} {C : σ → ℓ → Prop} {m : σ → Nat}
    (keep : ∀ s l t, I s → C s l → step s l = some t → I t)
    (lowers : ∀ s l t, I s → C s l → step s l = some t → m t < m s) {s t : σ} {ls : List ℓ}
    (hs : I s) (hc : EachStep step C s ls) (hr : run step s ls = some t) :
    ls.length + m t ≤ m s := by
  induction ls generalizing s with
  | nil =>
      obtain rfl : s = t := Option.some.inj hr
      simp
  | cons l ls ih =>
      obtain ⟨u, hu, hr⟩ := run_cons_eq_some.mp hr
      obtain ⟨hsl, hc⟩ := hc u hu
      have hlow := lowers s l u hs hsl hu
      have hrest := ih (keep s l u hs hsl hu) hc hr
      rw [List.length_cons]
      omega

/-- The allowances of the labels of a run together. -/
def total (allowance : ℓ → Nat) : List ℓ → Nat
  | [] => 0
  | l :: ls => allowance l + total allowance ls

theorem total_append (allowance : ℓ → Nat) (ls ms : List ℓ) :
    total allowance (ls ++ ms) = total allowance ls + total allowance ms := by
  induction ls with
  | nil => exact (Nat.zero_add _).symm
  | cons l ls ih => rw [List.cons_append, total, total, ih, Nat.add_assoc]

/-- The potential method: where the allowance of a label pays for its step and for the rise of the
potential, the length of a run is within the allowances of its labels. -/
theorem length_run_le_total {I : σ → Prop} {m : σ → Nat} {allowance : ℓ → Nat}
    (keep : ∀ s l t, I s → step s l = some t → I t)
    (pays : ∀ s l t, I s → step s l = some t → m t + 1 ≤ m s + allowance l) {s t : σ} {ls : List ℓ}
    (hs : I s) (hr : run step s ls = some t) : ls.length + m t ≤ m s + total allowance ls := by
  induction ls generalizing s with
  | nil =>
      obtain rfl : s = t := Option.some.inj hr
      simp [total]
  | cons l ls ih =>
      obtain ⟨u, hu, hr⟩ := run_cons_eq_some.mp hr
      have hpaid := pays s l u hs hu
      have hrest := ih (keep s l u hs hu) hr
      simp only [List.length_cons, total]
      omega

end Runs

/-! ### Invariants of the runs whose steps meet a condition -/

section Conditional
variable {step : σ → ℓ → Option σ} {I P : σ → Prop} {C Q : σ → ℓ → Prop} {D : ℓ → Prop}

theorem always_of_eachStep (sound : ∀ s, I s → P s)
    (keep : ∀ s l t, I s → C s l → step s l = some t → I t) {s : σ} {ls : List ℓ}
    (hs : I s) (hc : EachStep step C s ls) : Always step P s ls := by
  induction ls generalizing s with
  | nil => exact sound s hs
  | cons l ls ih =>
      refine ⟨sound s hs, ?_⟩
      intro t ht
      exact ih (keep s l t hs (hc t ht).1 ht) (hc t ht).2

theorem eachStep_of_eachStep (sound : ∀ s l t, I s → C s l → step s l = some t → Q s l)
    (keep : ∀ s l t, I s → C s l → step s l = some t → I t) {s : σ} {ls : List ℓ}
    (hs : I s) (hc : EachStep step C s ls) : EachStep step Q s ls := by
  induction ls generalizing s with
  | nil => trivial
  | cons l ls ih =>
      intro t ht
      have hsl := (hc t ht).1
      exact ⟨sound s l t hs hsl ht, ih (keep s l t hs hsl ht) (hc t ht).2⟩

/-- A run goes on where every step can be taken and keeps the invariant. -/
theorem exists_run (progress : ∀ s l, I s → D l → ∃ t, step s l = some t ∧ I t) {s : σ}
    {ls : List ℓ} (hs : I s) (hd : ∀ l ∈ ls, D l) : ∃ t, run step s ls = some t ∧ I t := by
  induction ls generalizing s with
  | nil => exact ⟨s, rfl, hs⟩
  | cons l ls ih =>
      obtain ⟨t, ht, hit⟩ := progress s l hs (hd l List.mem_cons_self)
      obtain ⟨u, hu, hiu⟩ := ih hit fun m hm => hd m (List.mem_cons_of_mem l hm)
      exact ⟨u, run_cons_eq_some.mpr ⟨t, ht, hu⟩, hiu⟩

theorem always_of_invariant (sound : ∀ s, I s → P s)
    (keep : ∀ s l t, I s → step s l = some t → I t) {s : σ} (hs : I s) (ls : List ℓ) :
    Always step P s ls := by
  induction ls generalizing s with
  | nil => exact sound s hs
  | cons l ls ih => exact ⟨sound s hs, fun t ht => ih (keep s l t hs ht)⟩

theorem eachStep_of_invariant (sound : ∀ s l t, I s → step s l = some t → Q s l)
    (keep : ∀ s l t, I s → step s l = some t → I t) {s : σ} (hs : I s) (ls : List ℓ) :
    EachStep step Q s ls := by
  induction ls generalizing s with
  | nil => trivial
  | cons l ls ih => exact fun t ht => ⟨sound s l t hs ht, ih (keep s l t hs ht)⟩

/-- A step condition that keeps the invariant, and that every step with a good outcome meets, is
exactly what separates the good runs from the others. The labels are taken from a domain `D`. -/
theorem always_eachStep_iff (soundState : ∀ s, I s → P s)
    (soundStep : ∀ s l t, I s → C s l → step s l = some t → Q s l)
    (keep : ∀ s l t, I s → D l → C s l → step s l = some t → I t)
    (necessary : ∀ s l t, I s → step s l = some t → P t → Q s l → C s l)
    {s : σ} (hs : I s) {ls : List ℓ} (hd : ∀ l ∈ ls, D l) :
    (Always step P s ls ∧ EachStep step Q s ls) ↔ EachStep step C s ls := by
  induction ls generalizing s with
  | nil => exact ⟨fun _ => trivial, fun _ => ⟨soundState s hs, trivial⟩⟩
  | cons l ls ih =>
      have hl : D l := hd l List.mem_cons_self
      have htail : ∀ m ∈ ls, D m := fun m hm => hd m (List.mem_cons_of_mem l hm)
      constructor
      · rintro ⟨hp, hq⟩ t ht
        have hsl : C s l := necessary s l t hs ht (hp.2 t ht).head (hq t ht).1
        exact ⟨hsl, (ih (keep s l t hs hl hsl ht) htail).mp ⟨hp.2 t ht, (hq t ht).2⟩⟩
      · intro hc
        refine ⟨⟨soundState s hs, ?_⟩, ?_⟩
        · intro t ht
          have hsl : C s l := (hc t ht).1
          exact ((ih (keep s l t hs hl hsl ht) htail).mpr (hc t ht).2).1
        · intro t ht
          have hsl : C s l := (hc t ht).1
          exact ⟨soundStep s l t hs hsl ht,
            ((ih (keep s l t hs hl hsl ht) htail).mpr (hc t ht).2).2⟩

/-- The same for a property of the visited states alone, in the runs whose steps all stay within a
domain of the environment. -/
theorem always_iff_eachStep_within {E : σ → ℓ → Prop} (sound : ∀ s, I s → P s)
    (keep : ∀ s l t, I s → E s l → C s l → step s l = some t → I t)
    (necessary : ∀ s l t, I s → E s l → step s l = some t → P t → C s l)
    {s : σ} (hs : I s) {ls : List ℓ} (he : EachStep step E s ls) :
    Always step P s ls ↔ EachStep step C s ls := by
  induction ls generalizing s with
  | nil => exact ⟨fun _ => trivial, fun _ => sound s hs⟩
  | cons l ls ih =>
      constructor
      · intro hp t ht
        have hsl : C s l := necessary s l t hs (he t ht).1 ht (hp.2 t ht).head
        exact ⟨hsl, (ih (keep s l t hs (he t ht).1 hsl ht) (he t ht).2).mp (hp.2 t ht)⟩
      · intro hc
        refine ⟨sound s hs, ?_⟩
        intro t ht
        exact (ih (keep s l t hs (he t ht).1 (hc t ht).1 ht) (he t ht).2).mpr (hc t ht).2

theorem always_iff_eachStep (sound : ∀ s, I s → P s)
    (keep : ∀ s l t, I s → C s l → step s l = some t → I t)
    (necessary : ∀ s l t, I s → step s l = some t → P t → C s l)
    {s : σ} (hs : I s) (ls : List ℓ) : Always step P s ls ↔ EachStep step C s ls :=
  always_iff_eachStep_within sound (fun s l t h _ => keep s l t h)
    (fun s l t h _ => necessary s l t h) hs
    (eachStep_of_forall_mem (D := fun _ => True) fun _ _ => trivial)

end Conditional

/-! ### Verdicts -/

section Verdicts
variable {step : σ → ℓ → Option σ} {Done Good : σ → Prop} {C : σ → ℓ → Prop}

theorem someStep_cons_of_step {s t : σ} {l : ℓ} (h : step s l = some t) (ls : List ℓ) :
    SomeStep step C s (l :: ls) ↔ C s l ∨ SomeStep step C t ls := by
  constructor
  · rintro ⟨u, hu, hc⟩
    obtain rfl : t = u := Option.some.inj (h.symm.trans hu)
    exact hc
  · intro hc
    exact ⟨t, h, hc⟩

/-- A run that comes to its last label has taken a step with every one of them. -/
theorem someStep_iff_exists_mem {D : ℓ → Prop} {s t : σ} {ls : List ℓ}
    (hr : run step s ls = some t) : SomeStep step (fun _ l => D l) s ls ↔ ∃ l ∈ ls, D l := by
  induction ls generalizing s with
  | nil => exact iff_of_false (fun h => h) (by simp)
  | cons l ls ih =>
      obtain ⟨u, hu, hr⟩ := run_cons_eq_some.mp hr
      rw [someStep_cons_of_step hu, ih hr]
      simp

theorem verdict_stays {I : σ → Prop} (keep : ∀ s l t, I s → step s l = some t → I t)
    (final : ∀ s l t, I s → Done s → step s l = some t → Done t ∧ (Good t ↔ Good s) ∧ ¬C s l)
    {s t : σ} {ls : List ℓ} (hi : I s) (hs : Done s) (hr : run step s ls = some t) :
    (Good t ↔ Good s) ∧ ¬SomeStep step C s ls := by
  induction ls generalizing s with
  | nil =>
      obtain rfl : s = t := Option.some.inj hr
      exact ⟨Iff.rfl, fun h => h⟩
  | cons l ls ih =>
      obtain ⟨u, hu, hr⟩ := run_cons_eq_some.mp hr
      obtain ⟨hdone, hgood, hc⟩ := final s l u hi hs hu
      obtain ⟨hgood', hc'⟩ := ih (keep s l u hi hu) hdone hr
      refine ⟨hgood'.trans hgood, ?_⟩
      rw [someStep_cons_of_step hu]
      exact not_or.mpr ⟨hc, hc'⟩

/-- A run that comes to its end gets the verdict `Good` exactly when one of its steps earns it:
`C` leads to that verdict at once, and no other step does. -/
theorem verdict_iff_someStep_of_invariant {I : σ → Prop}
    (keep : ∀ s l t, I s → step s l = some t → I t)
    (final : ∀ s l t, I s → Done s → step s l = some t → Done t ∧ (Good t ↔ Good s) ∧ ¬C s l)
    (earned : ∀ s l t, I s → ¬Done s → step s l = some t →
      (C s l → Done t ∧ Good t) ∧ (¬C s l → Done t → ¬Good t))
    {s t : σ} {ls : List ℓ} (hi : I s) (hs : ¬Done s) (hr : run step s ls = some t)
    (ht : Done t) : Good t ↔ SomeStep step C s ls := by
  induction ls generalizing s with
  | nil =>
      obtain rfl : s = t := Option.some.inj hr
      exact absurd ht hs
  | cons l ls ih =>
      obtain ⟨u, hu, hr⟩ := run_cons_eq_some.mp hr
      obtain ⟨hyes, hno⟩ := earned s l u hi hs hu
      have hiu : I u := keep s l u hi hu
      rw [someStep_cons_of_step hu]
      by_cases hc : C s l
      · obtain ⟨hdone, hgood⟩ := hyes hc
        have hstays := verdict_stays keep final hiu hdone hr
        exact iff_of_true (hstays.1.mpr hgood) (.inl hc)
      · by_cases hdone : Done u
        · obtain ⟨hgood, hnone⟩ := verdict_stays keep final hiu hdone hr
          have hbad : ¬Good t := fun h => hno hc hdone (hgood.mp h)
          exact iff_of_false hbad (not_or.mpr ⟨hc, hnone⟩)
        · rw [ih hiu hdone hr]
          exact (or_iff_right hc).symm

theorem verdict_iff_someStep (final : ∀ s l t, Done s → step s l = some t →
      Done t ∧ (Good t ↔ Good s) ∧ ¬C s l)
    (earned : ∀ s l t, ¬Done s → step s l = some t →
      (C s l → Done t ∧ Good t) ∧ (¬C s l → Done t → ¬Good t))
    {s t : σ} {ls : List ℓ} (hs : ¬Done s) (hr : run step s ls = some t) (ht : Done t) :
    Good t ↔ SomeStep step C s ls :=
  verdict_iff_someStep_of_invariant (I := fun _ => True) (fun _ _ _ h _ => h)
    (fun s l t _ => final s l t) (fun s l t _ => earned s l t) trivial hs hr ht

end Verdicts

/-! ### Views -/

section Views
variable {α : Type x} {κ : Type y} {step : σ → ℓ → Option σ} {astep : α → κ → Option α}
variable {view : σ → α} {op : σ → ℓ → Option κ} {I P : α → Prop} {C E : α → κ → Prop}

/-- `C` holds of what the abstract system sees of a step. -/
def SeenAs (view : σ → α) (op : σ → ℓ → Option κ) (C : α → κ → Prop) (s : σ) (l : ℓ) : Prop :=
  ∀ k ∈ op s l, C (view s) k

instance SeenAs.decidable [∀ a k, Decidable (C a k)] (s : σ) (l : ℓ) :
    Decidable (SeenAs view op C s l) :=
  match h : op s l with
  | none => isTrue fun k hk => absurd (h.symm.trans hk) (Option.some_ne_none k).symm
  | some k =>
      decidable_of_iff (C (view s) k)
        ⟨fun hC _ hj => Option.some.inj (h.symm.trans hj) ▸ hC, fun hall => hall k h⟩

/-- A system whose every step is seen as one step of an abstract system, or not at all, inherits
the condition that separates the good abstract runs from the others. -/
theorem always_iff_eachStep_of_view
    (seen : ∀ s l t, step s l = some t →
      (op s l).elim (view t = view s) fun k => astep (view s) k = some (view t))
    (sound : ∀ a, I a → P a)
    (keep : ∀ a k b, I a → E a k → C a k → astep a k = some b → I b)
    (necessary : ∀ a k b, I a → E a k → astep a k = some b → P b → C a k)
    {s : σ} (hs : I (view s)) {ls : List ℓ} (he : EachStep step (SeenAs view op E) s ls) :
    Always step (fun s => P (view s)) s ls ↔ EachStep step (SeenAs view op C) s ls := by
  refine always_iff_eachStep_within (I := fun s => I (view s)) (fun s h => sound _ h) ?_ ?_ hs he
  · intro s l t hi hE hC hstep
    have hseen := seen s l t hstep
    cases hop : op s l with
    | none =>
        rw [hop, Option.elim_none] at hseen
        exact hseen ▸ hi
    | some k =>
        rw [hop, Option.elim_some] at hseen
        exact keep _ k _ hi (hE k hop) (hC k hop) hseen
  · intro s l t hi hE hstep hP k hk
    have hseen := seen s l t hstep
    rw [Option.mem_def.mp hk, Option.elim_some] at hseen
    exact necessary _ k _ hi (hE k hk) hseen hP

/-- A run is seen as a run of the abstract system. -/
theorem run_filterMap {see : ℓ → Option κ}
    (seen : ∀ s l t, step s l = some t →
      (see l).elim (view t = view s) fun k => astep (view s) k = some (view t))
    {s t : σ} {ls : List ℓ} (h : run step s ls = some t) :
    run astep (view s) (ls.filterMap see) = some (view t) := by
  induction ls generalizing s with
  | nil => exact congrArg (fun u => some (view u)) (Option.some.inj h)
  | cons l ls ih =>
      obtain ⟨u, hu, hrest⟩ := run_cons_eq_some.mp h
      have hstep := seen s l u hu
      have hrun := ih hrest
      cases hsee : see l with
      | none =>
          rw [hsee, Option.elim_none] at hstep
          rwa [List.filterMap_cons_none hsee, ← hstep]
      | some k =>
          rw [hsee, Option.elim_some] at hstep
          rw [List.filterMap_cons_some hsee]
          exact run_cons_eq_some.mpr ⟨view u, hstep, hrun⟩

end Views

/-! ### Traces -/

section Traces
variable {ε : Type w} {step : σ → ℓ → Option σ} {obs : σ → ℓ → List ε}

@[simp] theorem trace_nil (s : σ) : trace step obs s [] = [] := rfl

theorem trace_cons_of_step {s t : σ} {l : ℓ} (h : step s l = some t) (ls : List ℓ) :
    trace step obs s (l :: ls) = obs s l ++ trace step obs t ls := by
  simp only [trace, h, Option.elim_some]

theorem trace_cons_of_stuck {s : σ} {l : ℓ} (h : step s l = none) (ls : List ℓ) :
    trace step obs s (l :: ls) = [] := by
  simp only [trace, h, Option.elim_none]

theorem trace_append_of_run {s t : σ} {ls : List ℓ} (h : run step s ls = some t) (ms : List ℓ) :
    trace step obs s (ls ++ ms) = trace step obs s ls ++ trace step obs t ms := by
  induction ls generalizing s with
  | nil =>
      obtain rfl : s = t := Option.some.inj h
      rfl
  | cons l ls ih =>
      obtain ⟨u, hu, hr⟩ := run_cons_eq_some.mp h
      rw [List.cons_append, trace_cons_of_step hu, trace_cons_of_step hu, ih hr,
        List.append_assoc]

/-- An invariant that also relates the state to what has been recorded so far. -/
theorem trace_invariant {I : σ → List ε → Prop}
    (keep : ∀ s l t past, I s past → step s l = some t → I t (past ++ obs s l))
    {s : σ} {past : List ε} (hs : I s past) (ls : List ℓ) :
    ∃ t, I t (past ++ trace step obs s ls) := by
  induction ls generalizing s past with
  | nil => exact ⟨s, by simpa using hs⟩
  | cons l ls ih =>
      cases h : step s l with
      | none => exact ⟨s, by simpa [trace_cons_of_stuck h] using hs⟩
      | some t =>
          obtain ⟨u, hu⟩ := ih (keep s l t past hs h)
          exact ⟨u, by simpa only [trace_cons_of_step h, List.append_assoc] using hu⟩

/-- The same for a run that takes a step with every label, all from a domain `D`. -/
theorem trace_invariant_of_run {I : σ → List ε → Prop} {D : ℓ → Prop}
    (keep : ∀ s l t past, I s past → D l → step s l = some t → I t (past ++ obs s l))
    {s t : σ} {past : List ε} {ls : List ℓ} (hs : I s past) (hd : ∀ l ∈ ls, D l)
    (hr : run step s ls = some t) : I t (past ++ trace step obs s ls) := by
  induction ls generalizing s past with
  | nil =>
      obtain rfl : s = t := Option.some.inj hr
      simpa using hs
  | cons l ls ih =>
      obtain ⟨u, hu, hr⟩ := run_cons_eq_some.mp hr
      have hkept := keep s l u past hs (hd l List.mem_cons_self) hu
      have hrest := ih hkept (fun m hm => hd m (List.mem_cons_of_mem l hm)) hr
      rwa [trace_cons_of_step hu, ← List.append_assoc]

/-- What is recorded comes from one of the labels. -/
theorem exists_label_of_mem_trace {e : ε} {s : σ} {ls : List ℓ} (h : e ∈ trace step obs s ls) :
    ∃ l ∈ ls, ∃ u, e ∈ obs u l := by
  induction ls generalizing s with
  | nil => exact absurd h (by simp)
  | cons l ls ih =>
      cases hl : step s l with
      | none => exact absurd h (by simp [trace_cons_of_stuck hl])
      | some t =>
          rw [trace_cons_of_step hl] at h
          rcases List.mem_append.mp h with hobs | hrest
          · exact ⟨l, List.mem_cons_self, s, hobs⟩
          · obtain ⟨m, hm, hu⟩ := ih hrest
            exact ⟨m, List.mem_cons_of_mem l hm, hu⟩

end Traces

/-! ### Simulation -/

section Simulation
variable {α : Type x} {κ : Type y} {ε : Type w}
variable {step : σ → ℓ → Option σ} {obs : σ → ℓ → List ε}
variable {astep : α → κ → Option α} {aobs : α → κ → List ε}

/-- If every concrete step with a label of the domain `D` is matched by abstract steps with the
same record, every concrete trace is the trace of an abstract run. -/
theorem trace_simulation {R : σ → α → Prop} {D : ℓ → Prop}
    (matched : ∀ s a l t, R s a → D l → step s l = some t →
      ∃ as b, run astep a as = some b ∧ trace astep aobs a as = obs s l ∧ R t b)
    {s : σ} {a : α} (h : R s a) {ls : List ℓ} (hd : ∀ l ∈ ls, D l) :
    ∃ as b, run astep a as = some b ∧
      trace astep aobs a as = trace step obs s ls := by
  induction ls generalizing s a with
  | nil => exact ⟨[], a, rfl, rfl⟩
  | cons l ls ih =>
      cases hl : step s l with
      | none => exact ⟨[], a, rfl, (trace_cons_of_stuck hl ls).symm⟩
      | some t =>
          obtain ⟨as, b, hrun, htrace, hR⟩ := matched s a l t h (hd l List.mem_cons_self) hl
          obtain ⟨bs, c, hrun', htrace'⟩ := ih hR fun m hm => hd m (List.mem_cons_of_mem l hm)
          refine ⟨as ++ bs, c, ?_, ?_⟩
          · rw [run_append_of_run hrun, hrun']
          · rw [trace_append_of_run hrun, htrace, htrace', trace_cons_of_step hl]

end Simulation

end StepSystem
