import Mathlib.Algebra.Group.Nat.Defs
import Mathlib.Data.List.Basic
import Mathlib.Data.List.Induction

/-!
Numbers and strings as bytes. A number takes a fixed count of bytes, the highest first; a string
stands behind its length. A reader takes a value from the front of a list of bytes, and what it
accepts is what a writer would have put there.
-/

namespace WireFormat
universe u

def bigEndian : Nat → Nat → List UInt8
  | 0, _ => []
  | w + 1, n => bigEndian w (n / 256) ++ [UInt8.ofNat n]

def readBig (bytes : List UInt8) : Nat := bytes.foldl (fun n b => 256 * n + b.toNat) 0

/-- A value from the front of some bytes, and the bytes behind it. -/
abbrev Reader (β : Type u) := List UInt8 → Option (β × List UInt8)

/-- A number of `w` bytes. -/
def word (w : Nat) : Reader Nat := fun bytes =>
  if w ≤ bytes.length then some (readBig (bytes.take w), bytes.drop w) else none

/-- A string behind its length, a number of `w` bytes. -/
def sized (w : Nat) : Reader (List UInt8) := fun bytes =>
  (word w bytes).bind fun p =>
    if p.1 ≤ p.2.length then some (p.2.take p.1, p.2.drop p.1) else none

def putSized (w : Nat) (xs : List UInt8) : List UInt8 := bigEndian w xs.length ++ xs

/-- One string after another. -/
def sizedMany (w : Nat) : Nat → Reader (List (List UInt8))
  | 0, bytes => some ([], bytes)
  | k + 1, bytes =>
      (sized w bytes).bind fun p => (sizedMany w k p.2).map fun q => (p.1 :: q.1, q.2)

/-! ### Numbers -/

@[simp] theorem length_bigEndian (w n : Nat) : (bigEndian w n).length = w := by
  induction w generalizing n with
  | zero => rfl
  | succ w ih => rw [bigEndian, List.length_append, ih, List.length_singleton]

/-- The highest byte of a number and the lower ones. -/
theorem bigEndian_succ (w n : Nat) :
    bigEndian (w + 1) n = UInt8.ofNat (n / 256 ^ w) :: bigEndian w n := by
  induction w generalizing n with
  | zero => rw [bigEndian, Nat.pow_zero, Nat.div_one]; rfl
  | succ w ih =>
      rw [bigEndian, ih, Nat.div_div_eq_div_mul, Nat.mul_comm 256, ← Nat.pow_succ]
      rfl

theorem readBig_append_singleton (xs : List UInt8) (b : UInt8) :
    readBig (xs ++ [b]) = 256 * readBig xs + b.toNat := by
  rw [readBig, List.foldl_append]
  rfl

theorem readBig_append (xs ys : List UInt8) :
    readBig (xs ++ ys) = readBig xs * 256 ^ ys.length + readBig ys := by
  induction ys using List.reverseRecOn with
  | nil => rw [List.append_nil, List.length_nil, Nat.pow_zero, Nat.mul_one]; rfl
  | append_singleton ys b ih =>
      rw [← List.append_assoc, readBig_append_singleton, ih, readBig_append_singleton,
        List.length_append, List.length_singleton, Nat.pow_succ, Nat.mul_add, Nat.add_assoc]
      congr 1
      rw [Nat.mul_comm 256, Nat.mul_assoc]

theorem readBig_bigEndian {w n : Nat} (h : n < 256 ^ w) : readBig (bigEndian w n) = n := by
  induction w generalizing n with
  | zero =>
      obtain rfl : n = 0 := by simpa using h
      rfl
  | succ w ih =>
      have hhigh : n / 256 < 256 ^ w := by
        apply Nat.div_lt_of_lt_mul
        rwa [Nat.pow_succ, Nat.mul_comm] at h
      rw [bigEndian, readBig_append_singleton, ih hhigh, UInt8.toNat_ofNat']
      omega

theorem readBig_lt (xs : List UInt8) : readBig xs < 256 ^ xs.length := by
  induction xs using List.reverseRecOn with
  | nil => exact Nat.one_pos
  | append_singleton xs b ih =>
      have hb := b.toNat_lt
      rw [readBig_append_singleton, List.length_append, List.length_singleton, Nat.pow_succ]
      omega

theorem bigEndian_readBig (xs : List UInt8) : bigEndian xs.length (readBig xs) = xs := by
  induction xs using List.reverseRecOn with
  | nil => rfl
  | append_singleton xs b ih =>
      have hb := b.toNat_lt
      have hhigh : (256 * readBig xs + b.toNat) / 256 = readBig xs := by omega
      have hlow : UInt8.ofNat (256 * readBig xs + b.toNat) = b := by
        apply UInt8.toNat_inj.mp
        rw [UInt8.toNat_ofNat']
        omega
      rw [readBig_append_singleton, List.length_append, List.length_singleton, bigEndian, hhigh,
        hlow, ih]

/-! ### Strings -/

section Strings
variable {w : Nat} {xs bytes rest : List UInt8}

theorem word_bigEndian {n : Nat} (h : n < 256 ^ w) (rest : List UInt8) :
    word w (bigEndian w n ++ rest) = some (n, rest) := by
  have htake : (bigEndian w n ++ rest).take w = bigEndian w n :=
    List.take_left' (length_bigEndian w n)
  have hdrop : (bigEndian w n ++ rest).drop w = rest := List.drop_left' (length_bigEndian w n)
  rw [word, if_pos (by simp), htake, hdrop, readBig_bigEndian h]

theorem eq_of_word {n : Nat} (h : word w bytes = some (n, rest)) :
    bytes = bigEndian w n ++ rest ∧ n < 256 ^ w := by
  obtain ⟨hlen, hpair⟩ := Option.ite_none_right_eq_some.mp h
  obtain ⟨rfl, rfl⟩ := Prod.mk.inj (Option.some.inj hpair)
  have htake : (bytes.take w).length = w := List.length_take_of_le hlen
  have hback := bigEndian_readBig (bytes.take w)
  have hlt := readBig_lt (bytes.take w)
  rw [htake] at hback hlt
  exact ⟨by rw [hback, List.take_append_drop], hlt⟩

theorem sized_putSized (h : xs.length < 256 ^ w) (rest : List UInt8) :
    sized w (putSized w xs ++ rest) = some (xs, rest) := by
  rw [sized, putSized, List.append_assoc, word_bigEndian h, Option.bind_some,
    if_pos (by simp), List.take_left, List.drop_left]

theorem eq_of_sized (h : sized w bytes = some (xs, rest)) :
    bytes = putSized w xs ++ rest ∧ xs.length < 256 ^ w := by
  obtain ⟨⟨n, tail⟩, hword, hsome⟩ := Option.bind_eq_some_iff.mp h
  obtain ⟨hlen, hpair⟩ := Option.ite_none_right_eq_some.mp hsome
  obtain ⟨rfl, rfl⟩ := Prod.mk.inj (Option.some.inj hpair)
  obtain ⟨hbytes, hlt⟩ := eq_of_word hword
  have htake : (tail.take n).length = n := List.length_take_of_le hlen
  rw [putSized, htake, List.append_assoc, List.take_append_drop]
  exact ⟨hbytes, hlt⟩

theorem sizedMany_putSized {strings : List (List UInt8)} (h : ∀ xs ∈ strings, xs.length < 256 ^ w)
    (rest : List UInt8) :
    sizedMany w strings.length (strings.flatMap (putSized w) ++ rest) = some (strings, rest) := by
  induction strings with
  | nil => rfl
  | cons xs strings ih =>
      have hrest := ih fun ys hys => h ys (List.mem_cons_of_mem xs hys)
      rw [List.length_cons, sizedMany, List.flatMap_cons, List.append_assoc,
        sized_putSized (h xs List.mem_cons_self), Option.bind_some, hrest]
      rfl

theorem eq_of_sizedMany {k : Nat} {strings : List (List UInt8)}
    (h : sizedMany w k bytes = some (strings, rest)) :
    bytes = strings.flatMap (putSized w) ++ rest ∧ strings.length = k := by
  induction k generalizing bytes strings with
  | zero =>
      obtain ⟨rfl, rfl⟩ := Prod.mk.inj (Option.some.inj h)
      exact ⟨rfl, rfl⟩
  | succ k ih =>
      obtain ⟨⟨xs, tail⟩, hsized, hmore⟩ := Option.bind_eq_some_iff.mp h
      obtain ⟨⟨others, tail'⟩, hmany, hpair⟩ := Option.map_eq_some_iff.mp hmore
      obtain ⟨rfl, rfl⟩ := Prod.mk.inj hpair
      obtain ⟨htail, hlen⟩ := ih hmany
      refine ⟨?_, congrArg (· + 1) hlen⟩
      rw [(eq_of_sized hsized).1, List.flatMap_cons, List.append_assoc]
      exact congrArg (putSized w xs ++ ·) htail

end Strings

end WireFormat
