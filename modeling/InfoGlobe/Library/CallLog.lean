import Mathlib.Data.List.Induction

/-!
Logs of the calls a component has made, and disciplines on them: conditions that every call must
meet in view of the calls before it.
-/

namespace CallLog
universe u
variable {α : Type u} {P : List α → α → Prop} {Q : α → List α → Prop}

/-- Every entry of the log meets `P` after the entries before it. -/
def EachEntry (P : List α → α → Prop) (log : List α) : Prop :=
  ∀ past c later, log = past ++ c :: later → P past c

theorem eachEntry_nil : EachEntry P [] := by
  intro past c later h
  exact absurd h (by simp)

theorem EachEntry.snoc {log : List α} {c : α} (h : EachEntry P log) (hc : P log c) :
    EachEntry P (log ++ [c]) := by
  intro past d later heq
  cases later using List.reverseRecOn with
  | nil =>
      obtain ⟨rfl, hcd⟩ := List.append_inj' heq rfl
      obtain rfl : c = d := List.singleton_inj.mp hcd
      exact hc
  | append_singleton later e =>
      rw [← List.cons_append, ← List.append_assoc] at heq
      exact h past d later (List.append_inj' heq rfl).1

/-- Several entries at once. -/
theorem EachEntry.append {log more : List α} (h : EachEntry P log)
    (hmore : ∀ past c later, more = past ++ c :: later → P (log ++ past) c) :
    EachEntry P (log ++ more) := by
  induction more generalizing log with
  | nil => rwa [List.append_nil]
  | cons c more ih =>
      have hc : P log c := by simpa using hmore [] c more rfl
      have hrest := ih (h.snoc hc) fun past d later heq => by
        simpa using hmore (c :: past) d later (by rw [heq, List.cons_append])
      rwa [List.append_assoc, List.singleton_append] at hrest

/-- Every entry of the log meets `Q` in view of the entries after it. -/
def Followed (Q : α → List α → Prop) (log : List α) : Prop :=
  ∀ past c later, log = past ++ c :: later → Q c later

theorem followed_nil : Followed Q [] := by
  intro past c later h
  exact absurd h (by simp)

theorem followed_append_singleton {log : List α} {c : α} :
    Followed Q (log ++ [c]) ↔ Followed (fun d later => Q d (later ++ [c])) log ∧ Q c [] := by
  constructor
  · intro h
    refine ⟨fun past d later heq => ?_, h log c [] rfl⟩
    exact h past d (later ++ [c]) (by rw [heq, List.append_assoc, List.cons_append])
  · rintro ⟨h, hc⟩ past d later heq
    cases later using List.reverseRecOn with
    | nil =>
        obtain ⟨_, hcd⟩ := List.append_inj' heq rfl
        obtain rfl : c = d := List.singleton_inj.mp hcd
        exact hc
    | append_singleton later e =>
        rw [← List.cons_append, ← List.append_assoc] at heq
        obtain ⟨hlog, hce⟩ := List.append_inj' heq rfl
        obtain rfl : c = e := List.singleton_inj.mp hce
        exact h past d later hlog

end CallLog
