import InfoGlobe.Library.CheckedBlock
import InfoGlobe.Library.StringCompare
import InfoGlobe.Library.WireFormat
import Mathlib.Algebra.Group.Int.Defs

/-!
The messages of the SSH library in memory. The store functions write the fields of a message behind
one another, the get functions take them from a `string_buf` that holds what a peer has sent.
-/

namespace InfoGlobe.Ssh
open CheckedBlock StringCompare WireFormat

/-- The result of code that accesses memory, none if an access is outside of its block. -/
abbrev Access := Option

/-- A value as a `size_t` of 32 bits. -/
def sizeT (x : Int) : Nat := (x % 2 ^ 32).toNat

def ntohu32 (block : List UInt8) (i : Nat) : Access UInt32 := do
  let b0 ← load block i
  let b1 ← load block (i + 1)
  let b2 ← load block (i + 2)
  let b3 ← load block (i + 3)
  return b0.toUInt32 <<< 24 ||| b1.toUInt32 <<< 16 ||| b2.toUInt32 <<< 8 ||| b3.toUInt32

/-- Its two halves are kept in a `long`, which has 32 bits. -/
def ntohu64 (block : List UInt8) (i : Nat) : Access UInt64 := do
  let msl ← ntohu32 block i
  let lsl ← ntohu32 block (i + 4)
  return msl.toUInt64 <<< 32 ||| lsl.toUInt64

def htonu32 (value : UInt32) : List UInt8 :=
  [(value >>> 24).toUInt8, (value >>> 16).toUInt8, (value >>> 8).toUInt8, value.toUInt8]

/-! ### Store functions -/

/-- A block of memory with the place where the next field is stored. -/
structure Out where
  block : List UInt8
  buf : Nat

def Out.put (out : Out) (bytes : List UInt8) : Access Out :=
  (store out.block out.buf bytes).map fun block =>
    { block := block, buf := out.buf + bytes.length }

def storeU32 (out : Out) (value : UInt32) : Access Out := out.put (htonu32 value)

def storeStr (out : Out) (str : List UInt8) : Access Out :=
  (storeU32 out (UInt32.ofNat str.length)).bind fun out =>
    if 0 < str.length then out.put str else some out

/-- Whether a number looks negative. -/
def extraByte (p : List UInt8) : Bool := decide (0 < p.length) && p.headD 0 &&& 0x80 != 0

/-- The number is stored without its leading zeros. -/
def storeBignum2Bytes (out : Out) (bytes : List UInt8) : Access Out :=
  let p := bytes.dropWhile (· == 0)
  (storeU32 out (UInt32.ofNat (p.length + (extraByte p).toNat))).bind fun out =>
    (if extraByte p = true then out.put [0] else some out).bind fun out =>
      if 0 < p.length then out.put p else some out

/-! ### Get functions -/

/-- `dataptr` is an index into `data`. -/
structure StringBuf where
  data : List UInt8
  dataptr : Nat
  len : Nat

def StringBuf.advance (buf : StringBuf) (n : Nat) : StringBuf :=
  { buf with dataptr := buf.dataptr + n }

def checkLength (buf : StringBuf) (len : Nat) : Bool :=
  let left := sizeT ((buf.len : Int) - buf.dataptr)
  decide (len ≤ left) && decide (left ≤ buf.len)

def eob (buf : StringBuf) : Bool := decide (buf.len ≤ buf.dataptr)

/-- A value of `w` bytes. -/
def getFixed {β : Type} (w : Nat) (value : List UInt8 → Nat → Access β) (buf : StringBuf) :
    Access (Option β × StringBuf) :=
  if checkLength buf w then
    (value buf.data buf.dataptr).map fun out => (some out, buf.advance w)
  else some (none, buf)

def getByte (buf : StringBuf) : Access (Option UInt8 × StringBuf) := getFixed 1 load buf

def getBoolean (buf : StringBuf) : Access (Option Bool × StringBuf) :=
  getFixed 1 (fun data dataptr => (load data dataptr).map (· != 0)) buf

def getU32 (buf : StringBuf) : Access (Option UInt32 × StringBuf) := getFixed 4 ntohu32 buf

def getU64 (buf : StringBuf) : Access (Option UInt64 × StringBuf) := getFixed 8 ntohu64 buf

/-- Where the string starts, and its length. -/
def getString (buf : StringBuf) : Access (Option (Nat × Nat) × StringBuf) :=
  (getU32 buf).map fun
    | (none, buf) => (none, buf)
    | (some dataLen, buf) =>
        if checkLength buf dataLen.toNat then
          (some (buf.dataptr, dataLen.toNat), buf.advance dataLen.toNat)
        else (none, buf)

def matchString (buf : StringBuf) (text : CText) : Access (Option Unit × StringBuf) :=
  (getString buf).bind fun
    | (none, buf) => some (none, buf)
    | (some (out, len), buf) =>
        if len ≠ text.chars.length then some (none, buf)
        else (agrees buf.data out text.chars).map fun same =>
          (if same then some () else none, buf)

/-- The loop that trims leading zeros. -/
def trimZeros (block : List UInt8) : Nat → Nat → Access (Nat × Nat)
  | bnptr, 0 => some (bnptr, 0)
  | bnptr, bnLen + 1 =>
      (load block bnptr).bind fun b =>
        if b = 0 then trimZeros block (bnptr + 1) bnLen else some (bnptr, bnLen + 1)

def getBignumBytes (buf : StringBuf) : Access (Option (Nat × Nat) × StringBuf) :=
  (getU32 buf).bind fun
    | (none, buf) => some (none, buf)
    | (some dataLen, buf) =>
        if checkLength buf dataLen.toNat then
          (trimZeros buf.data buf.dataptr dataLen.toNat).map fun bn =>
            (some bn, buf.advance dataLen.toNat)
        else some (none, buf)

/-! ### Numbers in memory -/

section Numbers
variable {block rest : List UInt8} {i : Nat}

theorem toNat_shiftLeft (b : UInt8) (k : Nat) (hk : k ≤ 24) :
    (b.toUInt32 <<< UInt32.ofNat k).toNat = b.toNat * 2 ^ k := by
  have hb := b.toNat_lt
  have hpow : 2 ^ k ≤ 2 ^ 24 := Nat.pow_le_pow_right (by decide) hk
  have hlt : b.toNat * 2 ^ k < 2 ^ 32 := by
    calc b.toNat * 2 ^ k ≤ 255 * 2 ^ 24 := Nat.mul_le_mul (by omega) hpow
      _ < 2 ^ 32 := by decide
  have hk' : (UInt32.ofNat k).toNat % 32 = k := by
    rw [UInt32.toNat_ofNat']
    omega
  rw [UInt32.toNat_shiftLeft, UInt8.toNat_toUInt32, hk', Nat.shiftLeft_eq, Nat.mod_eq_of_lt hlt]

theorem mul_or {a b k : Nat} (hb : b < 2 ^ k) : a * 2 ^ k ||| b = a * 2 ^ k + b := by
  rw [← Nat.shiftLeft_eq, ← Nat.shiftLeft_add_eq_or_of_lt hb]

theorem toNat_bytes (b0 b1 b2 b3 : UInt8) :
    (b0.toUInt32 <<< 24 ||| b1.toUInt32 <<< 16 ||| b2.toUInt32 <<< 8 ||| b3.toUInt32).toNat =
      readBig [b0, b1, b2, b3] := by
  have h1 := b1.toNat_lt
  have h2 := b2.toNat_lt
  have h3 := b3.toNat_lt
  have htop : b0.toNat * 2 ^ 24 ||| b1.toNat * 2 ^ 16 = (b0.toNat * 256 + b1.toNat) * 2 ^ 16 := by
    rw [mul_or (by omega)]
    omega
  have hmid : (b0.toNat * 256 + b1.toNat) * 2 ^ 16 ||| b2.toNat * 2 ^ 8 =
      ((b0.toNat * 256 + b1.toNat) * 256 + b2.toNat) * 2 ^ 8 := by
    rw [mul_or (by omega)]
    omega
  have hlow : ((b0.toNat * 256 + b1.toNat) * 256 + b2.toNat) * 2 ^ 8 ||| b3.toNat =
      readBig [b0, b1, b2, b3] := by
    rw [mul_or (by omega)]
    simp only [readBig, List.foldl_cons, List.foldl_nil]
    omega
  have h24 := toNat_shiftLeft b0 24 (by decide)
  have h16 := toNat_shiftLeft b1 16 (by decide)
  have h8 := toNat_shiftLeft b2 8 (by decide)
  rw [UInt32.toNat_or, UInt32.toNat_or, UInt32.toNat_or, UInt8.toNat_toUInt32]
  rw [show (24 : UInt32) = UInt32.ofNat 24 from rfl, h24,
    show (16 : UInt32) = UInt32.ofNat 16 from rfl, h16,
    show (8 : UInt32) = UInt32.ofNat 8 from rfl, h8, htop, hmid, hlow]

theorem four_of_length {xs : List UInt8} (h : xs.length = 4) :
    ∃ b0 b1 b2 b3, xs = [b0, b1, b2, b3] := by
  match xs, h with
  | [b0, b1, b2, b3], _ => exact ⟨b0, b1, b2, b3, rfl⟩

theorem ntohu32_of_drop {bytes : List UInt8} (h : block.drop i = bytes ++ rest)
    (hlen : bytes.length = 4) : ntohu32 block i = some (UInt32.ofNat (readBig bytes)) := by
  obtain ⟨b0, b1, b2, b3, rfl⟩ := four_of_length hlen
  have h1 := drop_succ_of_drop h
  have h2 := drop_succ_of_drop h1
  have h3 := drop_succ_of_drop h2
  have hvalue : b0.toUInt32 <<< 24 ||| b1.toUInt32 <<< 16 ||| b2.toUInt32 <<< 8 ||| b3.toUInt32 =
      UInt32.ofNat (readBig [b0, b1, b2, b3]) := by
    rw [← toNat_bytes, UInt32.ofNat_toNat]
  rw [ntohu32, load_of_drop h, load_of_drop h1, load_of_drop h2, load_of_drop h3, ← hvalue]
  rfl

theorem ntohu64_of_drop {bytes : List UInt8} (h : block.drop i = bytes ++ rest)
    (hlen : bytes.length = 8) : ntohu64 block i = some (UInt64.ofNat (readBig bytes)) := by
  have hfront : (bytes.take 4).length = 4 := by rw [List.length_take, hlen]; rfl
  have hback : (bytes.drop 4).length = 4 := by rw [List.length_drop, hlen]
  have hsplit : bytes.take 4 ++ bytes.drop 4 = bytes := List.take_append_drop 4 bytes
  have hmsl : block.drop i = bytes.take 4 ++ (bytes.drop 4 ++ rest) := by
    rw [← List.append_assoc, hsplit, h]
  have hlsl : block.drop (i + 4) = bytes.drop 4 ++ rest := by
    have hdrop := drop_add_of_drop hmsl
    rwa [hfront] at hdrop
  have hm := readBig_lt (bytes.take 4)
  have hl := readBig_lt (bytes.drop 4)
  rw [hfront] at hm
  rw [hback] at hl
  have hvalue : (UInt32.ofNat (readBig (bytes.take 4))).toUInt64 <<< 32 |||
      (UInt32.ofNat (readBig (bytes.drop 4))).toUInt64 = UInt64.ofNat (readBig bytes) := by
    have hsum := readBig_append (bytes.take 4) (bytes.drop 4)
    rw [hsplit, hback] at hsum
    rw [show (256 : Nat) ^ 4 = 2 ^ 32 by decide] at hm hl hsum
    apply UInt64.toNat_inj.mp
    rw [UInt64.toNat_or, UInt64.toNat_shiftLeft, UInt32.toNat_toUInt64, UInt32.toNat_toUInt64,
      UInt32.toNat_ofNat', UInt32.toNat_ofNat', UInt64.toNat_ofNat', Nat.mod_eq_of_lt hm,
      Nat.mod_eq_of_lt hl, show (32 : UInt64).toNat % 64 = 32 from rfl, Nat.shiftLeft_eq,
      Nat.mod_eq_of_lt (by omega), Nat.mod_eq_of_lt (by omega), mul_or hl, hsum]
  rw [ntohu64, ntohu32_of_drop hmsl hfront, ntohu32_of_drop hlsl hback, ← hvalue]
  rfl

theorem htonu32_eq (value : UInt32) : htonu32 value = bigEndian 4 value.toNat := by
  have hbyte : ∀ (k : Nat), k < 32 →
      (value >>> UInt32.ofNat k).toUInt8 = UInt8.ofNat (value.toNat / 2 ^ k) := by
    intro k hk
    have hk' : (UInt32.ofNat k).toNat % 32 = k := by
      rw [UInt32.toNat_ofNat']
      omega
    apply UInt8.toNat_inj.mp
    rw [UInt32.toNat_toUInt8, UInt32.toNat_shiftRight, hk', Nat.shiftRight_eq_div_pow,
      UInt8.toNat_ofNat']
  have hlow : value.toUInt8 = UInt8.ofNat value.toNat := by
    apply UInt8.toNat_inj.mp
    rw [UInt32.toNat_toUInt8, UInt8.toNat_ofNat']
  have h24 := hbyte 24 (by decide)
  have h16 := hbyte 16 (by decide)
  have h8 := hbyte 8 (by decide)
  simp only [bigEndian, Nat.div_div_eq_div_mul, List.nil_append, List.cons_append]
  exact congrArg₂ List.cons h24 (congrArg₂ List.cons h16 (congrArg₂ List.cons h8
    (congrArg (fun b => [b]) hlow)))

end Numbers

end InfoGlobe.Ssh
