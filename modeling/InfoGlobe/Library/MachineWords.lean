import Mathlib.Algebra.Group.Int.Defs
import Mathlib.Algebra.Group.Nat.Defs
import Mathlib.Data.List.Basic
import Mathlib.Data.Nat.Bitwise

/-!
Integers of the width of a C `int`, with the wrap made explicit, unsigned counters that wrap, and
bytes as bit strings, most significant bit first, with the packing of a bit string back into bytes.
-/

namespace MachineInt

/-- The value a 32-bit `int` holds after storing `x` in it. -/
def int32 (x : Int) : Int := x.bmod (2 ^ 32)

theorem int32_of_bounds {x : Int} (lo : -2 ^ 31 ≤ x) (hi : x < 2 ^ 31) : int32 x = x :=
  Int.bmod_eq_of_le (by omega) (by omega)

/-- The difference of two readings of a wrapping counter is the count between them, wherever the
counter has wrapped, as long as it went round less than once. -/
theorem toNat_sub_ofNat {a b : Nat} (h : a ≤ b) (hlt : b - a < 2 ^ 32) :
    (UInt32.ofNat b - UInt32.ofNat a).toNat = b - a := by
  rw [UInt32.toNat_sub, UInt32.toNat_ofNat', UInt32.toNat_ofNat']
  omega

/-- However often the counter has gone round, the difference of two readings is not too large. -/
theorem toNat_sub_ofNat_le {a b : Nat} (h : a ≤ b) :
    (UInt32.ofNat b - UInt32.ofNat a).toNat ≤ b - a := by
  rw [UInt32.toNat_sub, UInt32.toNat_ofNat', UInt32.toNat_ofNat']
  omega

end MachineInt

namespace BitOrder

/-- Bit `i` of a byte, counted from the most significant one, as the mask test of C reads it. -/
def bitMsb (b : UInt8) (i : Nat) : Bool := b.toNat &&& (1 <<< (7 - i)) != 0

def byteBits (b : UInt8) : List Bool := (List.range 8).map (bitMsb b)

/-- The bits of a byte string in the order they are sent. -/
def bits (bs : List UInt8) : List Bool := bs.flatMap byteBits

/-- The value of a bit string, most significant bit first. -/
def bitsValue (xs : List Bool) : Nat := xs.foldl (fun n b => 2 * n + b.toNat) 0

/-- Pack a bit string into bytes, eight bits at a time. -/
def pack : List Bool → List UInt8
  | b0 :: b1 :: b2 :: b3 :: b4 :: b5 :: b6 :: b7 :: rest =>
      UInt8.ofNat (bitsValue [b0, b1, b2, b3, b4, b5, b6, b7]) :: pack rest
  | _ => []

@[simp] theorem length_byteBits (b : UInt8) : (byteBits b).length = 8 := by simp [byteBits]

@[simp] theorem bits_nil : bits [] = [] := rfl

@[simp] theorem bits_cons (b : UInt8) (bs : List UInt8) :
    bits (b :: bs) = byteBits b ++ bits bs := rfl

@[simp] theorem length_bits (bs : List UInt8) : (bits bs).length = 8 * bs.length := by
  induction bs with
  | nil => rfl
  | cons b bs ih =>
      rw [bits_cons, List.length_append, length_byteBits, ih, List.length_cons]
      omega

theorem getElem?_byteBits (b : UInt8) {i : Nat} (h : i < 8) :
    (byteBits b)[i]? = some (bitMsb b i) := by
  simp [byteBits, h]

/-- Bit `n` of a byte string is bit `n % 8` of byte `n / 8`. -/
theorem getElem?_bits (bs : List UInt8) (n : Nat) :
    (bits bs)[n]? = (bs[n / 8]?).map fun b => bitMsb b (n % 8) := by
  induction bs generalizing n with
  | nil => simp
  | cons b bs ih =>
      rw [bits_cons]
      by_cases h : n < 8
      · rw [List.getElem?_append_left (by simpa using h), getElem?_byteBits b h,
          Nat.div_eq_of_lt h, Nat.mod_eq_of_lt h]
        rfl
      · obtain ⟨k, rfl⟩ : ∃ k, n = 8 + k := Nat.exists_eq_add_of_le (Nat.le_of_not_lt h)
        rw [List.getElem?_append_right (by simp), length_byteBits, Nat.add_sub_cancel_left, ih,
          Nat.add_mod_left, Nat.add_div_left k (by decide), List.getElem?_cons_succ]

theorem pack_byteBits_append (b : UInt8) (rest : List Bool) :
    pack (byteBits b ++ rest) = UInt8.ofNat (bitsValue (byteBits b)) :: pack rest := rfl

theorem bitsValue_byteBits (b : UInt8) : UInt8.ofNat (bitsValue (byteBits b)) = b := by
  have key : ∀ n : Fin 256,
      bitsValue ((List.range 8).map fun i => n.val &&& (1 <<< (7 - i)) != 0) = n.val := by
    decide +kernel
  have hb : bitsValue (byteBits b) = b.toNat := key ⟨b.toNat, b.toNat_lt⟩
  rw [hb, UInt8.ofNat_toNat]

/-- Packing the bits of a byte string gives it back. -/
theorem pack_bits (bs : List UInt8) : pack (bits bs) = bs := by
  induction bs with
  | nil => rfl
  | cons b bs ih => rw [bits_cons, pack_byteBits_append, bitsValue_byteBits, ih]

end BitOrder
