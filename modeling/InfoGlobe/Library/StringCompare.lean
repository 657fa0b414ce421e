import Mathlib.Algebra.Group.Nat.Defs
import Mathlib.Data.List.Basic

/-!
Comparing zero-terminated strings. A string is given by its characters in front of the terminator;
on a machine with 32-bit addresses it has fewer than 2 ^ 32 of them.
-/

namespace StringCompare

/-- A zero-terminated string. -/
structure CText where
  chars : List UInt8
  free : 0 ∉ chars
  fits : chars.length < 2 ^ 32

/-- The result is a `size_t`. -/
def CText.strlen (s : CText) : UInt32 := UInt32.ofNat s.chars.length

/-- `strncmp` on the characters of two strings: the difference at the first place where they
differ, a terminator included, among the first `n`. -/
def strncmp : List UInt8 → List UInt8 → Nat → Int
  | _, _, 0 => 0
  | [], [], _ + 1 => 0
  | a :: _, [], _ + 1 => a.toNat
  | [], b :: _, _ + 1 => -b.toNat
  | a :: as, b :: bs, n + 1 => if a = b then strncmp as bs n else (a.toNat : Int) - b.toNat

theorem toNat_ne_zero {s : List UInt8} {a : UInt8} (h : 0 ∉ a :: s) : a.toNat ≠ 0 := by
  intro hzero
  have ha : a = 0 := UInt8.toNat_inj.mp hzero
  exact h (ha ▸ List.mem_cons_self)

/-- Equal means equal up to the first `n` characters, or up to an earlier end of both. -/
theorem strncmp_eq_zero_iff {s t : List UInt8} (hs : 0 ∉ s) (ht : 0 ∉ t) (n : Nat) :
    strncmp s t n = 0 ↔ s.take n = t.take n := by
  induction n generalizing s t with
  | zero => simp [strncmp]
  | succ n ih =>
      cases s with
      | nil =>
          cases t with
          | nil => simp [strncmp]
          | cons b t =>
              have hb := toNat_ne_zero ht
              refine iff_of_false ?_ (by simp)
              simp only [strncmp]
              omega
      | cons a s =>
          cases t with
          | nil =>
              have ha := toNat_ne_zero hs
              refine iff_of_false ?_ (by simp)
              simp only [strncmp]
              omega
          | cons b t =>
              rw [List.take_succ_cons, List.take_succ_cons, List.cons.injEq, strncmp]
              by_cases hab : a = b
              · rw [if_pos hab,
                  ih (mt (List.mem_cons_of_mem a) hs) (mt (List.mem_cons_of_mem b) ht)]
                exact (and_iff_right hab).symm
              · rw [if_neg hab]
                have hne : a.toNat ≠ b.toNat := fun h => hab (UInt8.toNat_inj.mp h)
                refine iff_of_false ?_ fun h => hab h.1
                omega

/-- The length of a string that is not empty, less one, does not wrap. -/
theorem CText.toNat_strlen_sub_one {s : CText} (h : s.chars ≠ []) :
    (s.strlen - 1).toNat = s.chars.length - 1 := by
  have hpos := List.length_pos_of_ne_nil h
  have hfits := s.fits
  rw [strlen, UInt32.toNat_sub, UInt32.toNat_ofNat']
  simp only [UInt32.toNat_one]
  omega

end StringCompare
