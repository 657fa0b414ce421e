import Mathlib.Data.List.Basic
import Mathlib.Data.List.Induction

/-!
Parts of lists. A list that grows at its end is cut at its separators: the pieces that a separator
has ended stay, and the one behind the last separator is still open. Two selections from a list are
the same one when the first is within the second and they are equally long.
-/

namespace ListParts
universe u
variable {α : Type u}

/-! ### Pieces between separators -/

/-- The pieces that are ended by a separator. -/
def completed (p : α → Bool) (xs : List α) : List (List α) := (xs.splitOnP p).dropLast

/-- The piece behind the last separator. -/
def opened (p : α → Bool) (xs : List α) : List α :=
  (xs.splitOnP p).getLast (List.splitOnP_ne_nil p xs)

section Pieces
variable {p : α → Bool} {xs : List α} {a : α}

theorem completed_append_opened (p : α → Bool) (xs : List α) :
    completed p xs ++ [opened p xs] = xs.splitOnP p :=
  List.dropLast_append_getLast _

theorem pieces_eq {cs : List (List α)} {c : List α} (h : xs.splitOnP p = cs ++ [c]) :
    completed p xs = cs ∧ opened p xs = c := by
  rw [← completed_append_opened] at h
  obtain ⟨hcs, hc⟩ := List.append_inj' h rfl
  exact ⟨hcs, List.singleton_inj.mp hc⟩

theorem pieces_of_free (h : ∀ x ∈ xs, p x = false) : completed p xs = [] ∧ opened p xs = xs :=
  pieces_eq (List.splitOnP_eq_singleton h)

/-- A separator ends the open piece. -/
theorem pieces_snoc_separator (ha : p a = true) :
    completed p (xs ++ [a]) = completed p xs ++ [opened p xs] ∧ opened p (xs ++ [a]) = [] := by
  refine pieces_eq ?_
  rw [List.splitOnP_append_cons xs [] ha, List.splitOnP_nil, completed_append_opened]

/-- Anything else is added to it. -/
theorem pieces_snoc_other (ha : p a = false) : completed p (xs ++ [a]) = completed p xs ∧
    opened p (xs ++ [a]) = opened p xs ++ [a] := by
  refine pieces_eq ?_
  induction xs with
  | nil => simp [List.splitOnP_cons_eq_if_modifyHead, ha, completed, opened]
  | cons x xs ih =>
      have hrest := completed_append_opened p xs
      rw [List.cons_append, List.splitOnP_cons_eq_if_modifyHead, ih]
      cases hx : p x with
      | true =>
          have hcut : (x :: xs).splitOnP p = ([] :: completed p xs) ++ [opened p xs] := by
            rw [List.splitOnP_cons_eq_if_modifyHead, if_pos hx, List.cons_append, hrest]
          rw [(pieces_eq hcut).1, (pieces_eq hcut).2, if_pos rfl, List.cons_append]
      | false =>
          cases hcs : completed p xs with
          | nil =>
              rw [hcs, List.nil_append] at hrest
              have hcut : (x :: xs).splitOnP p = [] ++ [x :: opened p xs] := by
                simp [List.splitOnP_cons_eq_if_modifyHead, hx, ← hrest]
              rw [(pieces_eq hcut).1, (pieces_eq hcut).2]
              simp
          | cons c cs =>
              rw [hcs] at hrest
              have hcut : (x :: xs).splitOnP p = ((x :: c) :: cs) ++ [opened p xs] := by
                simp [List.splitOnP_cons_eq_if_modifyHead, hx, ← hrest]
              rw [(pieces_eq hcut).1, (pieces_eq hcut).2]
              simp

theorem mem_of_mem_opened {x : α} (h : x ∈ opened p xs) : x ∈ xs := by
  induction xs using List.reverseRecOn with
  | nil => exact h
  | append_singleton xs a ih =>
      cases ha : p a with
      | true =>
          rw [(pieces_snoc_separator ha).2] at h
          exact absurd h List.not_mem_nil
      | false =>
          rw [(pieces_snoc_other ha).2] at h
          exact (List.mem_append.mp h).elim (fun h => List.mem_append_left _ (ih h))
            (List.mem_append_right _)

end Pieces

/-! ### Lists of pieces -/

section Lists

/-- The pieces behind the first one, each behind its separator. -/
def trailing (sep : α) (pieces : List (List α)) : List α := pieces.flatMap (sep :: ·)

theorem intercalate_cons (sep : α) (piece : List α) (pieces : List (List α)) :
    [sep].intercalate (piece :: pieces) = piece ++ trailing sep pieces := by
  induction pieces generalizing piece with
  | nil => simp [trailing]
  | cons next pieces ih =>
      rw [List.intercalate_cons_cons, ih]
      simp [trailing]

/-- Pieces with a separator behind each. -/
def leading (sep : α) (pieces : List (List α)) : List α := pieces.flatMap (· ++ [sep])

theorem leading_append_singleton (sep : α) (pieces : List (List α)) (piece : List α) :
    leading sep (pieces ++ [piece]) = leading sep pieces ++ piece ++ [sep] := by
  simp [leading]

theorem intercalate_append_singleton (sep : α) (pieces : List (List α)) (piece : List α) :
    [sep].intercalate (pieces ++ [piece]) = leading sep pieces ++ piece := by
  induction pieces with
  | nil => simp [leading]
  | cons first pieces ih =>
      obtain ⟨next, rest, hnext⟩ : ∃ next rest, pieces ++ [piece] = next :: rest :=
        List.exists_cons_of_ne_nil (List.append_ne_nil_of_right_ne_nil pieces (List.cons_ne_nil _ _))
      rw [List.cons_append, hnext, List.intercalate_cons_cons, ← hnext, ih]
      simp [leading]

/-- A list as its pieces, none of which has a separator in it. -/
theorem exists_pieces [DecidableEq α] (sep : α) (xs : List α) :
    ∃ piece pieces, xs.splitOn sep = piece :: pieces ∧ xs = piece ++ trailing sep pieces ∧
      ∀ p ∈ piece :: pieces, sep ∉ p := by
  have hcut : ∃ piece pieces, xs = piece ++ trailing sep pieces ∧
      ∀ p ∈ piece :: pieces, sep ∉ p := by
    induction xs with
    | nil => exact ⟨[], [], rfl, by simp⟩
    | cons x xs ih =>
        obtain ⟨piece, pieces, rfl, hfree⟩ := ih
        by_cases hx : x = sep
        · refine ⟨[], piece :: pieces, by simp [trailing, hx], ?_⟩
          intro p hp
          cases hp with
          | head => exact List.not_mem_nil
          | tail _ hp => exact hfree p hp
        · refine ⟨x :: piece, pieces, rfl, ?_⟩
          intro p hp
          cases hp with
          | head =>
              intro hmem
              cases hmem with
              | head => exact hx rfl
              | tail _ hmem => exact hfree piece List.mem_cons_self hmem
          | tail _ hp => exact hfree p (List.mem_cons_of_mem piece hp)
  obtain ⟨piece, pieces, hxs, hfree⟩ := hcut
  refine ⟨piece, pieces, ?_, hxs, hfree⟩
  rw [hxs, ← intercalate_cons]
  exact List.splitOn_intercalate sep hfree (List.cons_ne_nil _ _)

end Lists

/-! ### Selections -/

section Selections
variable {p q : α → Bool} {xs : List α}

theorem findSome?_congr {β : Type u} {f g : α → Option β} (h : ∀ a ∈ xs, f a = g a) :
    xs.findSome? f = xs.findSome? g := by
  induction xs with
  | nil => rfl
  | cons a xs ih =>
      rw [List.findSome?_cons, List.findSome?_cons, h a List.mem_cons_self,
        ih fun b hb => h b (List.mem_cons_of_mem a hb)]

/-- What a wider selection adds makes it longer. -/
theorem imp_of_length_filter (hpq : ∀ a, p a = true → q a = true)
    (hlen : (xs.filter q).length = (xs.filter p).length) : ∀ a ∈ xs, q a = true → p a = true := by
  intro a ha hq
  have hsub : (xs.filter p).Sublist (xs.filter q) := List.monotone_filter_right xs hpq
  have hmem : a ∈ xs.filter p := by
    rw [hsub.eq_of_length hlen.symm]
    exact List.mem_filter.mpr ⟨ha, hq⟩
  exact (List.mem_filter.mp hmem).2

end Selections

end ListParts
