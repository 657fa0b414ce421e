import Mathlib.Data.Finset.Basic

/-!
Ownership of what is held: every held thing has an owner, nothing else has one, and no thing has
two. A component that takes something new, hands something over or gives something back keeps the
account exact; one that forgets something does not.
-/

namespace Ownership
universe u v
variable {ο : Type u} {β : Type v} {held : Finset β} {owns owns' : ο → β → Prop}

structure Exact (held : Finset β) (owns : ο → β → Prop) : Prop where
  mem_iff : ∀ b, b ∈ held ↔ ∃ o, owns o b
  unique : ∀ o p b, owns o b → owns p b → o = p

theorem Exact.existsUnique (h : Exact held owns) {b : β} (hb : b ∈ held) : ∃! o, owns o b := by
  obtain ⟨o, ho⟩ := (h.mem_iff b).mp hb
  exact ⟨o, ho, fun p hp => h.unique p o b hp ho⟩

/-- What another owner has is something else. -/
theorem Exact.owns_iff_of_ne (h : Exact held owns) {o p : ο} {b : β} (ho : owns o b) (hne : p ≠ o)
    (c : β) : owns p c ↔ owns p c ∧ c ≠ b := by
  refine ⟨fun hp => ⟨hp, ?_⟩, fun hp => hp.1⟩
  rintro rfl
  exact hne (h.unique p o c hp ho)

/-- Each owner passes on what it has, or keeps it. -/
theorem Exact.handover (h : Exact held owns) (f : ο → ο)
    (hf : ∀ o b, owns' o b ↔ ∃ p, owns p b ∧ f p = o) : Exact held owns' := by
  constructor
  · intro b
    rw [h.mem_iff]
    constructor
    · rintro ⟨p, hp⟩
      exact ⟨f p, (hf (f p) b).mpr ⟨p, hp, rfl⟩⟩
    · rintro ⟨o, ho⟩
      obtain ⟨p, hp, _⟩ := (hf o b).mp ho
      exact ⟨p, hp⟩
  · intro o o' b ho ho'
    obtain ⟨p, hp, rfl⟩ := (hf o b).mp ho
    obtain ⟨p', hp', rfl⟩ := (hf o' b).mp ho'
    rw [h.unique p p' b hp hp']

/-- One owner passes on what it has to another. -/
theorem Exact.transfer (h : Exact held owns) {o r : ο}
    (hown : ∀ p b, owns' p b ↔ (owns p b ∧ p ≠ o) ∨ (p = r ∧ owns o b)) : Exact held owns' := by
  classical
  refine h.handover (fun p => if p = o then r else p) ?_
  intro p b
  rw [hown]
  constructor
  · rintro (⟨hp, hne⟩ | ⟨rfl, ho⟩)
    · exact ⟨p, hp, if_neg hne⟩
    · exact ⟨o, ho, if_pos rfl⟩
  · rintro ⟨q, hq, heq⟩
    by_cases hqo : q = o
    · rw [if_pos hqo] at heq
      exact .inr ⟨heq.symm, hqo ▸ hq⟩
    · rw [if_neg hqo] at heq
      exact .inl ⟨heq ▸ hq, heq ▸ hqo⟩

theorem Exact.acquire [DecidableEq β] (h : Exact held owns) {o : ο} {b : β} (hb : b ∉ held)
    (hown : ∀ p c, owns' p c ↔ owns p c ∨ (p = o ∧ c = b)) : Exact (insert b held) owns' := by
  have hnone : ∀ p, ¬owns p b := fun p hp => hb ((h.mem_iff b).mpr ⟨p, hp⟩)
  constructor
  · intro c
    rw [Finset.mem_insert, h.mem_iff]
    constructor
    · rintro (rfl | ⟨p, hp⟩)
      · exact ⟨o, (hown o c).mpr (.inr ⟨rfl, rfl⟩)⟩
      · exact ⟨p, (hown p c).mpr (.inl hp)⟩
    · rintro ⟨p, hp⟩
      obtain hp | ⟨_, rfl⟩ := (hown p c).mp hp
      · exact .inr ⟨p, hp⟩
      · exact .inl rfl
  · intro p q c hp hq
    obtain hp | ⟨rfl, rfl⟩ := (hown p c).mp hp
    · obtain hq | ⟨rfl, rfl⟩ := (hown q c).mp hq
      · exact h.unique p q c hp hq
      · exact absurd hp (hnone p)
    · obtain hq | ⟨rfl, _⟩ := (hown q c).mp hq
      · exact absurd hq (hnone q)
      · rfl

theorem Exact.release [DecidableEq β] (h : Exact held owns) {b : β}
    (hown : ∀ p c, owns' p c ↔ owns p c ∧ c ≠ b) : Exact (held.erase b) owns' := by
  constructor
  · intro c
    rw [Finset.mem_erase, h.mem_iff]
    constructor
    · rintro ⟨hne, p, hp⟩
      exact ⟨p, (hown p c).mpr ⟨hp, hne⟩⟩
    · rintro ⟨p, hp⟩
      obtain ⟨hp, hne⟩ := (hown p c).mp hp
      exact ⟨hne, p, hp⟩
  · intro p q c hp hq
    exact h.unique p q c ((hown p c).mp hp).1 ((hown q c).mp hq).1

/-- What is still held but forgotten has no owner. -/
theorem not_owned_of_forgotten {b : β} (hown : ∀ p c, owns' p c ↔ owns p c ∧ c ≠ b) :
    ¬∃ o, owns' o b := by
  rintro ⟨o, ho⟩
  exact ((hown o b).mp ho).2 rfl

end Ownership
