import Mathlib.Data.List.Basic

/-!
A block of memory whose accesses are checked. A load or a store outside of the block has no result.
The string operations load one element at a time and no more than they have to.
-/

namespace CheckedBlock
universe u
variable {α : Type u}

def load (block : List α) (i : Nat) : Option α := block[i]?

/-- `n` elements from `i` on. -/
def loadMany (block : List α) (i n : Nat) : Option (List α) :=
  if i + n ≤ block.length then some ((block.drop i).take n) else none

/-- The block with `xs` written from `i` on. -/
def store (block : List α) (i : Nat) (xs : List α) : Option (List α) :=
  if i + xs.length ≤ block.length then
    some (block.take i ++ xs ++ block.drop (i + xs.length))
  else none

/-- `memchr`: where the first `c` is among `n` elements from `i` on. -/
def memchr [DecidableEq α] (block : List α) (c : α) : Nat → Nat → Option (Option Nat)
  | _, 0 => some none
  | i, n + 1 =>
      (load block i).bind fun a => if a = c then some (some i) else memchr block c (i + 1) n

/-- `strncmp(&block[i], cs, strlen(cs)) == 0`, which stops at the first difference. -/
def agrees [DecidableEq α] (block : List α) : Nat → List α → Option Bool
  | _, [] => some true
  | i, c :: cs =>
      (load block i).bind fun a => if a = c then agrees block (i + 1) cs else some false

/-! ### Loads -/

section Loads
variable {block xs rest : List α} {a : α} {i n : Nat}

theorem load_of_drop (h : block.drop i = a :: rest) : load block i = some a := by
  have hget := congrArg (fun l => l[0]?) h
  rw [List.getElem?_drop] at hget
  exact hget

theorem drop_succ_of_drop (h : block.drop i = a :: rest) : block.drop (i + 1) = rest := by
  rw [← List.drop_drop, h]
  rfl

theorem drop_add_of_drop (h : block.drop i = xs ++ rest) : block.drop (i + xs.length) = rest := by
  rw [← List.drop_drop, h, List.drop_left]

theorem loadMany_of_drop (h : block.drop i = xs ++ rest) (hi : i ≤ block.length) :
    loadMany block i xs.length = some xs := by
  have hlen := congrArg List.length h
  rw [List.length_drop, List.length_append] at hlen
  rw [loadMany, if_pos (by omega), h, List.take_left]

variable [DecidableEq α] {c : α}

theorem le_of_memchr {k : Nat} (h : memchr block c i n = some (some k)) : i ≤ k := by
  induction n generalizing i with
  | zero => cases h
  | succ n ih =>
      rw [memchr] at h
      obtain ⟨a, -, h⟩ := Option.bind_eq_some_iff.mp h
      by_cases ha : a = c
      · rw [if_pos ha] at h
        exact Nat.le_of_eq (Option.some.inj (Option.some.inj h))
      · rw [if_neg ha] at h
        exact Nat.le_of_succ_le (ih h)

theorem memchr_found (h : block.drop i = xs ++ c :: rest) (hxs : c ∉ xs) (hn : xs.length < n) :
    memchr block c i n = some (some (i + xs.length)) := by
  induction xs generalizing i n with
  | nil =>
      obtain ⟨n, rfl⟩ := Nat.exists_eq_succ_of_ne_zero (Nat.ne_of_gt hn)
      rw [memchr, load_of_drop h, Option.bind_some, if_pos rfl]
      rfl
  | cons a xs ih =>
      obtain ⟨n, rfl⟩ := Nat.exists_eq_succ_of_ne_zero (Nat.ne_of_gt (Nat.zero_lt_of_lt hn))
      have ha : a ≠ c := fun hac => hxs (hac ▸ List.mem_cons_self)
      have hrest := ih (drop_succ_of_drop h) (fun hmem => hxs (List.mem_cons_of_mem a hmem))
        (Nat.lt_of_succ_lt_succ hn)
      rw [memchr, load_of_drop h, Option.bind_some, if_neg ha, hrest, List.length_cons]
      congr 2
      omega

theorem memchr_missing (h : block.drop i = xs ++ rest) (hxs : c ∉ xs) (hn : xs.length = n) :
    memchr block c i n = some none := by
  induction xs generalizing i n with
  | nil =>
      obtain rfl : n = 0 := hn.symm
      rfl
  | cons a xs ih =>
      obtain rfl : n = xs.length + 1 := hn.symm
      have ha : a ≠ c := fun hac => hxs (hac ▸ List.mem_cons_self)
      rw [memchr, load_of_drop h, Option.bind_some, if_neg ha]
      exact ih (drop_succ_of_drop h) (fun hmem => hxs (List.mem_cons_of_mem a hmem)) rfl

theorem agrees_eq {cs : List α} (h : block.drop i = xs ++ rest) (hlen : cs.length ≤ xs.length) :
    agrees block i cs = some (decide (cs <+: xs)) := by
  induction cs generalizing xs i with
  | nil => simp [agrees]
  | cons c cs ih =>
      cases xs with
      | nil => exact absurd hlen (Nat.not_succ_le_zero _)
      | cons a xs =>
          rw [agrees, load_of_drop h, Option.bind_some]
          by_cases ha : a = c
          · rw [if_pos ha, ih (drop_succ_of_drop h) (Nat.le_of_succ_le_succ hlen)]
            simp [ha]
          · rw [if_neg ha]
            simp [List.cons_prefix_cons, Ne.symm ha]

end Loads

/-! ### Stores -/

section Stores
variable {block front xs old back : List α}

/-- A store between two parts of a block replaces what was there. -/
theorem store_between (hlen : xs.length = old.length) :
    store (front ++ old ++ back) front.length xs = some (front ++ xs ++ back) := by
  have hfits : front.length + xs.length ≤ (front ++ old ++ back).length := by
    simp only [List.length_append]
    omega
  have hdrop : (front ++ old ++ back).drop (front.length + xs.length) = back := by
    rw [hlen, ← List.length_append, List.drop_left]
  rw [store, if_pos hfits, hdrop, List.append_assoc front old, List.take_left]

theorem store_over {rest : List α} (hlen : xs.length ≤ rest.length) :
    store (front ++ rest) front.length xs = some (front ++ xs ++ rest.drop xs.length) := by
  have hold : xs.length = (rest.take xs.length).length := (List.length_take_of_le hlen).symm
  have hstore : store (front ++ rest.take xs.length ++ rest.drop xs.length) front.length xs =
      some (front ++ xs ++ rest.drop xs.length) := store_between hold
  rwa [List.append_assoc front, List.take_append_drop] at hstore

theorem length_of_store {block block' : List α} {i : Nat} (h : store block i xs = some block') :
    block'.length = block.length := by
  obtain ⟨hfits, heq⟩ := Option.ite_none_right_eq_some.mp h
  rw [← Option.some.inj heq]
  simp only [List.length_append, List.length_take, List.length_drop]
  omega

end Stores

end CheckedBlock
