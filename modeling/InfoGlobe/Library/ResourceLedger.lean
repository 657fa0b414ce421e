import InfoGlobe.Library.CallLog
import Mathlib.Data.Finset.Basic
import Mathlib.Data.List.Count

/-!
Ledgers of resources: what a component acquires, uses and releases, in order. A disciplined ledger
uses and releases only what is held and acquires only what is not; then a resource is held exactly
when it was acquired once more than it was released.
-/

namespace ResourceLedger
open CallLog
universe u
variable {ρ : Type u} [DecidableEq ρ]

inductive Event (ρ : Type u)
  | acquired (r : ρ)
  | used (r : ρ)
  | released (r : ρ)
  deriving DecidableEq

def enter (holding : Finset ρ) : Event ρ → Finset ρ
  | .acquired r => insert r holding
  | .used _ => holding
  | .released r => holding.erase r

/-- What has been acquired and not yet released. -/
def held (log : List (Event ρ)) : Finset ρ := log.foldl enter ∅

def Permitted (past : List (Event ρ)) : Event ρ → Prop
  | .acquired r => r ∉ held past
  | .used r | .released r => r ∈ held past

def Disciplined (log : List (Event ρ)) : Prop := EachEntry Permitted log

/-- `r` has been released exactly once for every time it was acquired. -/
def Settled (log : List (Event ρ)) (r : ρ) : Prop :=
  log.count (.released r) = log.count (.acquired r)

instance (log : List (Event ρ)) (r : ρ) : Decidable (Settled log r) :=
  inferInstanceAs (Decidable (_ = _))

@[simp] theorem held_nil : held ([] : List (Event ρ)) = ∅ := rfl

@[simp] theorem held_append_singleton (log : List (Event ρ)) (e : Event ρ) :
    held (log ++ [e]) = enter (held log) e :=
  List.foldl_concat enter ∅ e log

@[simp] theorem disciplined_nil : Disciplined ([] : List (Event ρ)) := eachEntry_nil

theorem disciplined_append_singleton {log : List (Event ρ)} {e : Event ρ} :
    Disciplined (log ++ [e]) ↔ Disciplined log ∧ Permitted log e := by
  constructor
  · intro h
    refine ⟨fun past c later heq => ?_, h log e [] rfl⟩
    exact h past c (later ++ [e]) (by rw [heq, List.append_assoc, List.cons_append])
  · rintro ⟨h, he⟩
    exact h.snoc he

/-- The events are permitted one after another, from what is held at their beginning. -/
def PermittedFrom : Finset ρ → List (Event ρ) → Prop
  | _, [] => True
  | holding, .acquired r :: es => r ∉ holding ∧ PermittedFrom (enter holding (.acquired r)) es
  | holding, .used r :: es => r ∈ holding ∧ PermittedFrom (enter holding (.used r)) es
  | holding, .released r :: es => r ∈ holding ∧ PermittedFrom (enter holding (.released r)) es

theorem held_append (log es : List (Event ρ)) : held (log ++ es) = es.foldl enter (held log) :=
  List.foldl_append

theorem permittedFrom_cons {log : List (Event ρ)} {e : Event ρ} {es : List (Event ρ)} :
    PermittedFrom (held log) (e :: es) ↔
      Permitted log e ∧ PermittedFrom (held (log ++ [e])) es := by
  rw [held_append_singleton]
  cases e <;> rfl

theorem disciplined_append {log es : List (Event ρ)} :
    Disciplined (log ++ es) ↔ Disciplined log ∧ PermittedFrom (held log) es := by
  induction es generalizing log with
  | nil => simp [PermittedFrom]
  | cons e es ih =>
      rw [List.append_cons, ih, disciplined_append_singleton, permittedFrom_cons, and_assoc]

theorem count_acquired {log : List (Event ρ)} (h : Disciplined log) (r : ρ) :
    log.count (.acquired r) = log.count (.released r) + if r ∈ held log then 1 else 0 := by
  induction log using List.reverseRecOn with
  | nil => rfl
  | append_singleton log e ih =>
      obtain ⟨hlog, he⟩ := disciplined_append_singleton.mp h
      have hcount := ih hlog
      rw [List.count_append, List.count_append, held_append_singleton]
      cases e with
      | acquired q =>
          by_cases hq : q = r
          · subst hq
            have hfree : q ∉ held log := he
            simp [enter, hcount, hfree]
          · have hqr : r ≠ q := fun h => hq h.symm
            simp [enter, hcount, hq, hqr]
      | used q =>
          have hsame : enter (held log) (.used q) = held log := rfl
          rw [hsame]
          simpa using hcount
      | released q =>
          by_cases hq : q = r
          · subst hq
            have hheld : q ∈ held log := he
            simp [enter, hcount, hheld]
          · have hqr : r ≠ q := fun h => hq h.symm
            simp [enter, hcount, hq, hqr]

/-- In a disciplined ledger the resources that are not held are the settled ones. -/
theorem settled_iff_not_held {log : List (Event ρ)} (h : Disciplined log) (r : ρ) :
    Settled log r ↔ r ∉ held log := by
  have hcount := count_acquired h r
  unfold Settled
  by_cases hheld : r ∈ held log
  · simp only [hheld, if_true, not_true_eq_false, iff_false] at hcount ⊢
    omega
  · simp only [hheld, if_false, not_false_eq_true, iff_true] at hcount ⊢
    omega

end ResourceLedger
