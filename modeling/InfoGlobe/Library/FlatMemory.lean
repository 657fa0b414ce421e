import Mathlib.Data.List.Basic
import Mathlib.Data.List.TakeWhile
import Mathlib.Data.List.Range

/-!
Flat memory: a cell for every offset from a base, with the block reads and writes of C's memcpy,
memset and recv, and the zero-terminated strings that are read from it. An object of the program
is a region of such a memory; that accesses stay inside the region is a theorem about the program,
not a property of the memory.
-/

namespace FlatMemory
universe u
variable {α : Type u}

/-- The `n` cells from `off` on. -/
def readAt (m : Nat → α) (off n : Nat) : List α :=
  (List.range n).map fun i => m (off + i)

/-- Store `xs` from `off` on. -/
def writeAt (m : Nat → α) (off : Nat) (xs : List α) : Nat → α :=
  fun i => if i < off then m i else (xs[i - off]?).getD (m i)

@[simp] theorem length_readAt (m : Nat → α) (off n : Nat) : (readAt m off n).length = n := by
  simp [readAt]

@[simp] theorem readAt_zero (m : Nat → α) (off : Nat) : readAt m off 0 = [] := rfl

theorem getElem?_readAt (m : Nat → α) (off n i : Nat) (h : i < n) :
    (readAt m off n)[i]? = some (m (off + i)) := by
  simp [readAt, h]

theorem readAt_add (m : Nat → α) (off a b : Nat) :
    readAt m off (a + b) = readAt m off a ++ readAt m (off + a) b := by
  simp [readAt, List.range_add, Function.comp_def, Nat.add_assoc]

theorem take_readAt (m : Nat → α) (off : Nat) {k n : Nat} (h : k ≤ n) :
    (readAt m off n).take k = readAt m off k := by
  obtain ⟨d, rfl⟩ := Nat.exists_eq_add_of_le h
  rw [readAt_add]
  exact List.take_left' (length_readAt m off k)

theorem readAt_congr {m m' : Nat → α} {off off' n : Nat}
    (h : ∀ i, i < n → m (off + i) = m' (off' + i)) : readAt m off n = readAt m' off' n :=
  List.map_congr_left fun i hi => h i (List.mem_range.mp hi)

theorem writeAt_of_lt (m : Nat → α) {off i : Nat} (xs : List α) (h : i < off) :
    writeAt m off xs i = m i := by
  simp [writeAt, h]

theorem writeAt_of_ge (m : Nat → α) {off i : Nat} (xs : List α) (h : off + xs.length ≤ i) :
    writeAt m off xs i = m i := by
  have hnone : xs[i - off]? = none := List.getElem?_eq_none (by omega)
  simp [writeAt, hnone]

theorem writeAt_add (m : Nat → α) (off : Nat) (xs : List α) (i : Nat) :
    writeAt m off xs (off + i) = (xs[i]?).getD (m (off + i)) := by
  simp [writeAt]

theorem readAt_writeAt (m : Nat → α) (off : Nat) (xs : List α) :
    readAt (writeAt m off xs) off xs.length = xs := by
  apply List.ext_getElem?
  intro i
  by_cases h : i < xs.length
  · rw [getElem?_readAt _ _ _ _ h, writeAt_add]
    simp [h]
  · rw [List.getElem?_eq_none (by simpa using Nat.le_of_not_lt h),
      List.getElem?_eq_none (Nat.le_of_not_lt h)]

theorem readAt_writeAt_of_disjoint (m : Nat → α) {off off' n : Nat} (xs : List α)
    (h : off' + n ≤ off ∨ off + xs.length ≤ off') :
    readAt (writeAt m off xs) off' n = readAt m off' n := by
  apply readAt_congr
  intro i hi
  rcases h with h | h
  · exact writeAt_of_lt m xs (by omega)
  · exact writeAt_of_ge m xs (by omega)

theorem take_drop_readAt (m : Nat → α) (off n i k : Nat) (h : i + k ≤ n) :
    ((readAt m off n).drop i).take k = readAt m (off + i) k := by
  obtain ⟨d, rfl⟩ : ∃ d, n = i + (k + d) := ⟨n - i - k, by omega⟩
  rw [readAt_add, List.drop_left' (length_readAt m off i), take_readAt _ _ (by omega)]

/-- A part of what was stored is read back from its place. -/
theorem readAt_writeAt_part (m : Nat → α) (off : Nat) (xs : List α) (i k : Nat)
    (h : i + k ≤ xs.length) : readAt (writeAt m off xs) (off + i) k = (xs.drop i).take k := by
  rw [← take_drop_readAt _ _ xs.length i k h, readAt_writeAt]

/-- Storing behind what is already there appends to it. -/
theorem readAt_writeAt_append (m : Nat → α) (off n : Nat) (xs : List α) :
    readAt (writeAt m (off + n) xs) off (n + xs.length) = readAt m off n ++ xs := by
  rw [readAt_add, readAt_writeAt_of_disjoint m xs (.inl (Nat.le_refl _)), readAt_writeAt]

/-! ### Zero-terminated strings -/

section Strings
variable [DecidableEq α] [OfNat α 0]

/-- The string that starts at `off`, when it ends within the `n` cells from there. -/
def cString (m : Nat → α) (off n : Nat) : List α :=
  (readAt m off n).takeWhile (· ≠ 0)

def strnlen (m : Nat → α) (off n : Nat) : Nat := (cString m off n).length

/-- `xs` and its terminator are stored from `off` on. -/
structure HoldsString (m : Nat → α) (off : Nat) (xs : List α) : Prop where
  free : (0 : α) ∉ xs
  stored : readAt m off (xs.length + 1) = xs ++ [0]

/-- The cells up to a terminator are the string, whatever lies behind the terminator. -/
theorem HoldsString.cString_eq {m : Nat → α} {off n : Nat} {xs : List α}
    (h : HoldsString m off xs) (hlen : xs.length < n) : cString m off n = xs := by
  obtain ⟨hfree, hread⟩ := h
  obtain ⟨d, rfl⟩ : ∃ d, n = xs.length + 1 + d := Nat.exists_eq_add_of_le hlen
  have hall : ∀ x ∈ xs, decide (x ≠ 0) = true := by
    intro x hx
    simpa using fun h : x = 0 => hfree (h ▸ hx)
  rw [cString, readAt_add, hread, List.append_assoc, List.takeWhile_append_of_pos hall]
  simp

/-- A terminator stands within the `n` cells from `off` on. -/
def Terminated (m : Nat → α) (off n : Nat) : Prop := ∃ i, i < n ∧ m (off + i) = 0

theorem Terminated.length_cString_lt {m : Nat → α} {off n : Nat} (h : Terminated m off n) :
    (cString m off n).length < n := by
  obtain ⟨i, hi, hzero⟩ := h
  by_contra hlong
  have hlen : (cString m off n).length = (readAt m off n).length := by
    have hle := (List.takeWhile_prefix (l := readAt m off n) (· ≠ (0 : α))).length_le
    rw [length_readAt] at hle ⊢
    unfold cString at hlong ⊢
    omega
  have hwhole : cString m off n = readAt m off n :=
    (List.takeWhile_prefix (· ≠ (0 : α))).eq_of_length hlen
  have hmem : (0 : α) ∈ cString m off n := by
    rw [hwhole]
    exact List.mem_of_getElem? ((getElem?_readAt m off n i hi).trans (congrArg some hzero))
  have hkept := List.mem_takeWhile_imp hmem
  simp at hkept

/-- A reader that goes on behind the `n` cells finds the same string. -/
theorem Terminated.cString_eq {m : Nat → α} {off n k : Nat} (h : Terminated m off n)
    (hk : n ≤ k) : cString m off k = cString m off n := by
  obtain ⟨d, rfl⟩ := Nat.exists_eq_add_of_le hk
  have hlt := h.length_cString_lt
  unfold cString at hlt ⊢
  rw [readAt_add, List.takeWhile_append, if_neg]
  rw [length_readAt]
  omega

end Strings

end FlatMemory
