import Mathlib.Data.List.TakeWhile
import InfoGlobe.Ssh.StringBuf

/-!
The fields of a message. What a peer has sent is arbitrary: no get function leaves the buffer, and
what it returns is the field that the bytes encode. What the store functions have written is read
back.
-/

namespace InfoGlobe.Ssh
open CheckedBlock StringCompare WireFormat

/-- The buffer is within its block, and the pointer within the buffer. -/
structure Placed (buf : StringBuf) : Prop where
  inside : buf.dataptr ≤ buf.len
  block : buf.len ≤ buf.data.length
  small : buf.len < 2 ^ 32

/-- What is left to get. -/
def StringBuf.rest (buf : StringBuf) : List UInt8 := (buf.data.take buf.len).drop buf.dataptr

/-- The buffer behind a get function: the pointer may have moved on. -/
structure Later (buf buf' : StringBuf) : Prop where
  placed : Placed buf'
  data : buf'.data = buf.data
  len : buf'.len = buf.len
  forward : buf.dataptr ≤ buf'.dataptr

/-- A get function has done what a reader does with what was left. -/
structure Got {β : Type} (buf : StringBuf) (taken : Option (β × List UInt8))
    (out : Option β × StringBuf) : Prop where
  later : Later buf out.2
  value : out.1 = taken.map Prod.fst
  rest : ∀ p ∈ taken, out.2.rest = p.2

/-! ### The buffer -/

section Buffer
variable {buf : StringBuf}

theorem Placed.length_rest (h : Placed buf) : buf.rest.length = buf.len - buf.dataptr := by
  have hblock := h.block
  rw [StringBuf.rest, List.length_drop, List.length_take]
  omega

theorem Placed.checkLength_eq (h : Placed buf) (n : Nat) :
    checkLength buf n = decide (n ≤ buf.rest.length) := by
  have hinside := h.inside
  have hsmall := h.small
  have hleft : sizeT ((buf.len : Int) - buf.dataptr) = buf.rest.length := by
    rw [h.length_rest, sizeT]
    omega
  have hle : buf.rest.length ≤ buf.len := by
    rw [h.length_rest]
    omega
  rw [checkLength, hleft, decide_eq_true hle, Bool.and_true]

theorem Placed.drop_data (h : Placed buf) :
    buf.data.drop buf.dataptr = buf.rest ++ buf.data.drop buf.len := by
  have hlen : buf.dataptr ≤ (buf.data.take buf.len).length := by
    rw [List.length_take_of_le h.block]
    exact h.inside
  conv_lhs => rw [← List.take_append_drop buf.len buf.data]
  rw [List.drop_append_of_le_length hlen, StringBuf.rest]

theorem Placed.advance (h : Placed buf) {n : Nat} (hn : n ≤ buf.rest.length) :
    Placed (buf.advance n) := by
  have hinside := h.inside
  rw [h.length_rest] at hn
  exact ⟨by simp only [StringBuf.advance]; omega, h.block, h.small⟩

theorem rest_advance (buf : StringBuf) (n : Nat) : (buf.advance n).rest = buf.rest.drop n := by
  rw [StringBuf.rest, StringBuf.rest, List.drop_drop]
  rfl

theorem eob_iff (h : Placed buf) : eob buf = true ↔ buf.rest = [] := by
  rw [← List.length_eq_zero_iff, h.length_rest, eob, decide_eq_true_iff]
  omega

end Buffer

/-! ### The get functions -/

/-- A number of `w` bytes as a value. -/
def fixed {β : Type} (w : Nat) (f : Nat → β) : Reader β := fun bytes =>
  (word w bytes).map fun p => (f p.1, p.2)

section Gets
variable {buf : StringBuf}

theorem got_fixed {β : Type} {w : Nat} {value : List UInt8 → Nat → Access β} {f : Nat → β}
    (hvalue : ∀ block i bytes rest, block.drop i = bytes ++ rest → bytes.length = w →
      value block i = some (f (readBig bytes))) (h : Placed buf) :
    ∃ out, getFixed w value buf = some out ∧ Got buf (fixed w f buf.rest) out := by
  by_cases hw : w ≤ buf.rest.length
  · have hcheck : checkLength buf w = true := by rw [h.checkLength_eq, decide_eq_true hw]
    have hdrop : buf.data.drop buf.dataptr =
        buf.rest.take w ++ (buf.rest.drop w ++ buf.data.drop buf.len) := by
      rw [h.drop_data, ← List.append_assoc, List.take_append_drop]
    have hread := hvalue _ _ _ _ hdrop (List.length_take_of_le hw)
    have htaken : fixed w f buf.rest = some (f (readBig (buf.rest.take w)), buf.rest.drop w) := by
      rw [fixed, word, if_pos hw]
      rfl
    refine ⟨_, by rw [getFixed, if_pos hcheck, hread]; rfl, ?_⟩
    exact {
      later := ⟨h.advance hw, rfl, rfl, Nat.le_add_right _ _⟩
      value := by rw [htaken]; rfl
      rest := by
        intro p hp
        rw [htaken] at hp
        rw [← Option.some.inj hp, rest_advance] }
  · have hcheck : checkLength buf w = false := by rw [h.checkLength_eq, decide_eq_false hw]
    have htaken : fixed w f buf.rest = none := by
      rw [fixed, word, if_neg hw]
      rfl
    refine ⟨_, by rw [getFixed, hcheck]; rfl, ?_⟩
    exact {
      later := ⟨h, rfl, rfl, Nat.le_refl _⟩
      value := by rw [htaken]; rfl
      rest := by
        intro p hp
        rw [htaken] at hp
        cases hp }

theorem got_u32 (h : Placed buf) :
    ∃ out, getU32 buf = some out ∧ Got buf (fixed 4 UInt32.ofNat buf.rest) out :=
  got_fixed (fun _ _ _ _ hdrop hlen => ntohu32_of_drop hdrop hlen) h

theorem got_u64 (h : Placed buf) :
    ∃ out, getU64 buf = some out ∧ Got buf (fixed 8 UInt64.ofNat buf.rest) out :=
  got_fixed (fun _ _ _ _ hdrop hlen => ntohu64_of_drop hdrop hlen) h

theorem load_of_one {block bytes rest : List UInt8} {i : Nat} (h : block.drop i = bytes ++ rest)
    (hlen : bytes.length = 1) : load block i = some (UInt8.ofNat (readBig bytes)) := by
  obtain ⟨b, rfl⟩ := List.length_eq_one_iff.mp hlen
  have hb := b.toNat_lt
  rw [load_of_drop h]
  congr 1
  apply UInt8.toNat_inj.mp
  simp only [readBig, List.foldl_cons, List.foldl_nil, UInt8.toNat_ofNat']
  omega

theorem got_byte (h : Placed buf) :
    ∃ out, getByte buf = some out ∧ Got buf (fixed 1 UInt8.ofNat buf.rest) out :=
  got_fixed (fun _ _ _ _ hdrop hlen => load_of_one hdrop hlen) h

theorem got_boolean (h : Placed buf) : ∃ out, getBoolean buf = some out ∧
    Got buf (fixed 1 (fun n => UInt8.ofNat n != 0) buf.rest) out :=
  got_fixed (fun _ _ _ _ hdrop hlen => by rw [load_of_one hdrop hlen]; rfl) h

/-- A string is where its pointer says, or there is none. -/
inductive GotString (buf : StringBuf) : Option (Nat × Nat) × StringBuf → Prop
  | failed {buf' : StringBuf} (short : sized 4 buf.rest = none) (later : Later buf buf') :
      GotString buf (none, buf')
  | got {off : Nat} {xs : List UInt8} {buf' : StringBuf}
      (taken : sized 4 buf.rest = some (xs, buf'.rest)) (later : Later buf buf')
      (inside : off + xs.length = buf'.dataptr)
      (there : buf.data.drop off = xs ++ (buf'.rest ++ buf.data.drop buf.len)) :
      GotString buf (some (off, xs.length), buf')

theorem Later.trans {buf buf' buf'' : StringBuf} (h : Later buf buf') (h' : Later buf' buf'') :
    Later buf buf'' where
  placed := h'.placed
  data := h'.data.trans h.data
  len := h'.len.trans h.len
  forward := Nat.le_trans h.forward h'.forward

theorem got_string (h : Placed buf) : ∃ out, getString buf = some out ∧ GotString buf out := by
  obtain ⟨⟨dataLen, b⟩, hu32, hlater, hvalue, hrest⟩ := got_u32 h
  cases hword : word 4 buf.rest with
  | none =>
      rw [fixed, hword] at hvalue
      obtain rfl : dataLen = none := hvalue
      exact ⟨_, by rw [getString, hu32]; rfl, .failed (by rw [sized, hword]; rfl) hlater⟩
  | some p =>
      obtain ⟨n, tail⟩ := p
      have hn : (UInt32.ofNat n).toNat = n := by
        have hlt := (eq_of_word hword).2
        rw [UInt32.toNat_ofNat']
        omega
      rw [fixed, hword] at hvalue hrest
      obtain rfl : dataLen = some (UInt32.ofNat n) := hvalue
      obtain rfl : b.rest = tail := hrest _ rfl
      have hstring : getString buf = some (if checkLength b n then
          (some (b.dataptr, n), b.advance n) else (none, b)) := by
        simp only [getString, hu32, Option.map_some, hn]
      rw [hlater.placed.checkLength_eq] at hstring
      by_cases hle : n ≤ b.rest.length
      · have hsized : sized 4 buf.rest = some (b.rest.take n, b.rest.drop n) := by
          rw [sized, hword, Option.bind_some, if_pos hle]
        have hlen : (b.rest.take n).length = n := List.length_take_of_le hle
        have hdata : b.data.drop b.dataptr =
            b.rest.take n ++ (b.rest.drop n ++ b.data.drop b.len) := by
          rw [hlater.placed.drop_data, ← List.append_assoc, List.take_append_drop]
        rw [decide_eq_true hle, if_pos rfl] at hstring
        refine ⟨_, hstring, ?_⟩
        have hnext : Later buf (b.advance n) :=
          hlater.trans ⟨hlater.placed.advance hle, rfl, rfl, Nat.le_add_right _ _⟩
        rw [← rest_advance] at hsized hdata
        rw [hlater.data, hlater.len] at hdata
        have hgot := GotString.got hsized hnext (congrArg (b.dataptr + ·) hlen) hdata
        rwa [hlen] at hgot
      · have hsized : sized 4 buf.rest = none := by
          rw [sized, hword, Option.bind_some, if_neg hle]
        rw [decide_eq_false hle] at hstring
        exact ⟨_, hstring, .failed hsized hlater⟩

theorem trimZeros_of_drop {block xs tail : List UInt8} {i : Nat} (h : block.drop i = xs ++ tail) :
    ∃ off, trimZeros block i xs.length = some (off, (xs.dropWhile (· == 0)).length) ∧
      block.drop off = xs.dropWhile (· == 0) ++ tail ∧ off ≤ i + xs.length := by
  induction xs generalizing i with
  | nil => exact ⟨i, rfl, h, Nat.le_refl _⟩
  | cons b xs ih =>
      by_cases hb : b = 0
      · obtain ⟨off, htrim, hdrop, hoff⟩ := ih (drop_succ_of_drop h)
        have hwhile : (b :: xs).dropWhile (· == 0) = xs.dropWhile (· == 0) :=
          List.dropWhile_cons_of_pos (by simp [hb])
        refine ⟨off, ?_, by rw [hwhile, hdrop], by rw [List.length_cons]; omega⟩
        rw [List.length_cons, trimZeros, load_of_drop h, Option.bind_some, if_pos hb, htrim, hwhile]
      · have hwhile : (b :: xs).dropWhile (· == 0) = b :: xs :=
          List.dropWhile_cons_of_neg (by simp [hb])
        refine ⟨i, ?_, by rw [hwhile, h], Nat.le_add_right _ _⟩
        rw [List.length_cons, trimZeros, load_of_drop h, Option.bind_some, if_neg hb, hwhile,
          List.length_cons]

/-- A number is a string that is trimmed. -/
theorem getBignumBytes_eq (buf : StringBuf) :
    getBignumBytes buf = (getString buf).bind fun
      | (none, buf') => some (none, buf')
      | (some p, buf') => (trimZeros buf'.data p.1 p.2).map fun bn => (some bn, buf') := by
  rw [getBignumBytes, getString]
  cases getU32 buf with
  | none => rfl
  | some out =>
      obtain ⟨dataLen, b⟩ := out
      cases dataLen with
      | none => rfl
      | some dataLen =>
          simp only [Option.bind_some, Option.map_some]
          split
          · rfl
          · rfl

end Gets

/-! ### Getting one field after another -/

inductive Get
  | byte
  | boolean
  | u32
  | u64
  | string
  | matchString (text : CText)
  | bignum

inductive Value
  | byte (b : UInt8)
  | boolean (b : Bool)
  | u32 (n : UInt32)
  | u64 (n : UInt64)
  | string (bytes : List UInt8)
  | matched
  | bignum (bytes : List UInt8)
deriving DecidableEq

/-- What a caller loads from where a get function points. -/
def pointed (value : List UInt8 → Value) :
    Option (Nat × Nat) × StringBuf → Access (Option Value × StringBuf)
  | (none, buf) => some (none, buf)
  | (some (off, len), buf) =>
      (loadMany buf.data off len).map fun bytes => (some (value bytes), buf)

def Get.run (buf : StringBuf) : Get → Access (Option Value × StringBuf)
  | .byte => (getByte buf).map fun out => (out.1.map .byte, out.2)
  | .boolean => (getBoolean buf).map fun out => (out.1.map .boolean, out.2)
  | .u32 => (getU32 buf).map fun out => (out.1.map .u32, out.2)
  | .u64 => (getU64 buf).map fun out => (out.1.map .u64, out.2)
  | .string => (getString buf).bind (pointed .string)
  | .matchString text =>
      (InfoGlobe.Ssh.matchString buf text).map fun out => (out.1.map fun _ => .matched, out.2)
  | .bignum => (getBignumBytes buf).bind (pointed .bignum)

/-- The field as the bytes encode it. -/
def Get.reader (bytes : List UInt8) : Get → Option (Value × List UInt8)
  | .byte => fixed 1 (fun n => .byte (UInt8.ofNat n)) bytes
  | .boolean => fixed 1 (fun n => .boolean (UInt8.ofNat n != 0)) bytes
  | .u32 => fixed 4 (fun n => .u32 (UInt32.ofNat n)) bytes
  | .u64 => fixed 8 (fun n => .u64 (UInt64.ofNat n)) bytes
  | .string => (sized 4 bytes).map fun p => (.string p.1, p.2)
  | .matchString text =>
      (sized 4 bytes).bind fun p => if p.1 = text.chars then some (.matched, p.2) else none
  | .bignum => (sized 4 bytes).map fun p => (.bignum (p.1.dropWhile (· == 0)), p.2)

/-- A caller that gives up at the first field it cannot get. -/
def runGets : List Get → StringBuf → Access (Option (List Value) × StringBuf)
  | [], buf => some (some [], buf)
  | g :: gets, buf =>
      (g.run buf).bind fun
        | (none, buf) => some (none, buf)
        | (some v, buf) => (runGets gets buf).map fun out => (out.1.map (v :: ·), out.2)

def readAll : List Get → Reader (List Value)
  | [], bytes => some ([], bytes)
  | g :: gets, bytes =>
      (g.reader bytes).bind fun p => (readAll gets p.2).map fun q => (p.1 :: q.1, q.2)

section Sequences
variable {buf : StringBuf}

theorem Got.map {β γ : Type} {taken : Option (β × List UInt8)} {out : Option β × StringBuf}
    (h : Got buf taken out) (f : β → γ) :
    Got buf (taken.map fun p => (f p.1, p.2)) (out.1.map f, out.2) where
  later := h.later
  value := by
    rw [h.value, Option.map_map, Option.map_map]
    rfl
  rest := by
    intro p hp
    obtain ⟨q, hq, rfl⟩ := Option.map_eq_some_iff.mp hp
    exact h.rest q hq

theorem got_run_fixed {β : Type} {w : Nat} {f : Nat → β} (value : β → Value)
    {get : StringBuf → Access (Option β × StringBuf)}
    (h : ∃ out, get buf = some out ∧ Got buf (fixed w f buf.rest) out) :
    ∃ out, ((get buf).map fun out => (out.1.map value, out.2)) = some out ∧
      Got buf (fixed w (fun n => value (f n)) buf.rest) out := by
  obtain ⟨out, hout, hgot⟩ := h
  refine ⟨_, by rw [hout]; rfl, ?_⟩
  have hmap := hgot.map value
  rwa [fixed, Option.map_map] at hmap

theorem Later.got_none {β : Type} {buf' : StringBuf} {taken : Option (β × List UInt8)}
    (h : Later buf buf') (htaken : taken = none) : Got buf taken (none, buf') where
  later := h
  value := by rw [htaken]; rfl
  rest := by
    intro p hp
    rw [htaken] at hp
    cases hp

theorem Later.got_some {β : Type} {buf' : StringBuf} {taken : Option (β × List UInt8)} {v : β}
    (h : Later buf buf') (htaken : taken = some (v, buf'.rest)) : Got buf taken (some v, buf') where
  later := h
  value := by rw [htaken]; rfl
  rest := by
    intro p hp
    rw [htaken] at hp
    rw [← Option.some.inj hp]

theorem pointed_of_drop {value : List UInt8 → Value} {off : Nat} {xs tail : List UInt8}
    {buf' : StringBuf} (hlater : Later buf buf') (hdrop : buf.data.drop off = xs ++ tail)
    (hoff : off ≤ buf'.dataptr) :
    pointed value (some (off, xs.length), buf') = some (some (value xs), buf') := by
  have hblock : off ≤ buf'.data.length :=
    Nat.le_trans hoff (Nat.le_trans hlater.placed.inside hlater.placed.block)
  rw [← hlater.data] at hdrop
  rw [pointed, loadMany_of_drop hdrop hblock]
  rfl

theorem got_run_string (h : Placed buf) :
    ∃ out, Get.run buf .string = some out ∧ Got buf (Get.reader buf.rest .string) out := by
  obtain ⟨out, hout, hgot⟩ := got_string h
  rw [Get.run, hout, Option.bind_some, Get.reader]
  cases hgot with
  | failed hshort hlater => exact ⟨_, rfl, hlater.got_none (by rw [hshort]; rfl)⟩
  | got htaken hlater hinside hthere =>
      refine ⟨_, pointed_of_drop hlater hthere (by omega), hlater.got_some ?_⟩
      rw [htaken]
      rfl

theorem got_run_bignum (h : Placed buf) :
    ∃ out, Get.run buf .bignum = some out ∧ Got buf (Get.reader buf.rest .bignum) out := by
  obtain ⟨out, hout, hgot⟩ := got_string h
  rw [Get.run, getBignumBytes_eq, hout, Option.bind_some, Get.reader]
  cases hgot with
  | failed hshort hlater => exact ⟨_, rfl, hlater.got_none (by rw [hshort]; rfl)⟩
  | got htaken hlater hinside hthere =>
      obtain ⟨off, htrim, hdrop, hoff⟩ := trimZeros_of_drop hthere
      rw [← hlater.data] at htrim
      simp only [htrim, Option.map_some, Option.bind_some]
      refine ⟨_, pointed_of_drop hlater hdrop (by omega), hlater.got_some ?_⟩
      rw [htaken]
      rfl

theorem got_run_match (text : CText) (h : Placed buf) :
    ∃ out, Get.run buf (.matchString text) = some out ∧
      Got buf (Get.reader buf.rest (.matchString text)) out := by
  obtain ⟨out, hout, hgot⟩ := got_string h
  rw [Get.run, matchString, hout, Option.bind_some, Get.reader]
  cases hgot with
  | failed hshort hlater => exact ⟨_, rfl, hlater.got_none (by rw [hshort]; rfl)⟩
  | @got off xs buf' htaken hlater hinside hthere =>
      rw [htaken, Option.bind_some]
      by_cases hlen : xs.length = text.chars.length
      · have hagrees : agrees buf'.data off text.chars = some (decide (text.chars <+: xs)) := by
          rw [hlater.data]
          exact agrees_eq hthere (Nat.le_of_eq hlen.symm)
        have hsame : text.chars <+: xs ↔ xs = text.chars :=
          ⟨fun hfront => (hfront.eq_of_length hlen.symm).symm, fun heq => heq ▸ List.prefix_rfl⟩
        simp only [hlen, ne_eq, not_true_eq_false, if_false, hagrees, Option.map_some, hsame]
        by_cases heq : xs = text.chars
        · simp only [heq, decide_true, if_true]
          exact ⟨_, rfl, hlater.got_some rfl⟩
        · simp only [heq, decide_false, if_false]
          exact ⟨_, rfl, hlater.got_none rfl⟩
      · have hne : xs ≠ text.chars := fun heq => hlen (congrArg List.length heq)
        simp only [ne_eq, hlen, not_false_eq_true, if_true, if_neg hne, Option.map_some]
        exact ⟨_, rfl, hlater.got_none rfl⟩

theorem got_run (g : Get) (h : Placed buf) :
    ∃ out, g.run buf = some out ∧ Got buf (g.reader buf.rest) out := by
  cases g with
  | byte => exact got_run_fixed .byte (got_byte h)
  | boolean => exact got_run_fixed .boolean (got_boolean h)
  | u32 => exact got_run_fixed .u32 (got_u32 h)
  | u64 => exact got_run_fixed .u64 (got_u64 h)
  | string => exact got_run_string h
  | matchString text => exact got_run_match text h
  | bignum => exact got_run_bignum h

theorem got_runGets (gets : List Get) (h : Placed buf) :
    ∃ out, runGets gets buf = some out ∧ Got buf (readAll gets buf.rest) out := by
  induction gets generalizing buf with
  | nil => exact ⟨_, rfl, Later.got_some ⟨h, rfl, rfl, Nat.le_refl _⟩ rfl⟩
  | cons g gets ih =>
      obtain ⟨⟨v, b⟩, hrun, hgot⟩ := got_run g h
      rw [runGets, hrun, Option.bind_some, readAll]
      cases htaken : g.reader buf.rest with
      | none =>
          rw [htaken] at hgot
          obtain rfl : v = none := hgot.value
          exact ⟨_, rfl, hgot.later.got_none rfl⟩
      | some p =>
          obtain ⟨v', tail⟩ := p
          rw [htaken] at hgot
          obtain rfl : v = some v' := hgot.value
          obtain rfl : b.rest = tail := hgot.rest _ rfl
          obtain ⟨out, hout, hmore⟩ := ih hgot.later.placed
          simp only [hout, Option.map_some, Option.bind_some]
          have hmap := hmore.map (v' :: ·)
          exact ⟨_, rfl, hgot.later.trans hmap.later, hmap.value, hmap.rest⟩

/-- Whatever the peer has sent: getting any fields one after another stays within the buffer, all
strings that are pointed to included, and gives what the bytes encode, or fails where they encode
no such fields. -/
theorem gets_confined (gets : List Get) (h : Placed buf) :
    ∃ out, runGets gets buf = some out ∧ Placed out.2 ∧ out.2.data = buf.data ∧
      out.1 = (readAll gets buf.rest).map Prod.fst ∧
      ∀ p ∈ readAll gets buf.rest, out.2.rest = p.2 := by
  obtain ⟨out, hout, hgot⟩ := got_runGets gets h
  exact ⟨out, hout, hgot.later.placed, hgot.later.data, hgot.value, hgot.rest⟩

/-- The length of the string is a lie. -/
theorem gets_confined_lie :
    ∃ out, runGets [.byte, .string] ⟨[20, 0, 0, 0, 9, 65, 66], 0, 7⟩ = some out ∧ Placed out.2 ∧
      out.2.data = [20, 0, 0, 0, 9, 65, 66] ∧ out.1 = none := by
  obtain ⟨out, hout, hplaced, hdata, hvalue, -⟩ :=
    @gets_confined ⟨[20, 0, 0, 0, 9, 65, 66], 0, 7⟩ [.byte, .string]
      ⟨by decide, by decide, by decide⟩
  exact ⟨out, hout, hplaced, hdata, hvalue⟩

end Sequences

/-! ### What has been stored -/

inductive Field
  | u32 (n : UInt32)
  | str (bytes : List UInt8)
  | bignum (bytes : List UInt8)

def Field.store (out : Out) : Field → Access Out
  | .u32 n => storeU32 out n
  | .str bytes => storeStr out bytes
  | .bignum bytes => storeBignum2Bytes out bytes

def storeFields : List Field → Out → Access Out
  | [], out => some out
  | f :: fields, out => (f.store out).bind (storeFields fields)

/-- The digits of a number that is not negative. -/
def positive (bytes : List UInt8) : List UInt8 :=
  let p := bytes.dropWhile (· == 0)
  if extraByte p then 0 :: p else p

def Field.wire : Field → List UInt8
  | .u32 n => bigEndian 4 n.toNat
  | .str bytes => putSized 4 bytes
  | .bignum bytes => putSized 4 (positive bytes)

/-- The length of the field is a `uint32_t`. -/
def Field.Fits : Field → Prop
  | .u32 _ => True
  | .str bytes => bytes.length < 2 ^ 32
  | .bignum bytes => (positive bytes).length < 2 ^ 32

instance : (f : Field) → Decidable f.Fits
  | .u32 _ => inferInstanceAs (Decidable True)
  | .str _ => inferInstanceAs (Decidable (_ < _))
  | .bignum _ => inferInstanceAs (Decidable (_ < _))

def Field.get : Field → Get
  | .u32 _ => .u32
  | .str _ => .string
  | .bignum _ => .bignum

def Field.value : Field → Value
  | .u32 n => .u32 n
  | .str bytes => .string bytes
  | .bignum bytes => .bignum (bytes.dropWhile (· == 0))

/-- A store function fills a place with some bytes and goes on behind them. -/
def Writes (stores : Out → Access Out) (bytes : List UInt8) : Prop :=
  ∀ front old back : List UInt8, bytes.length = old.length →
    stores ⟨front ++ old ++ back, front.length⟩ =
      some ⟨front ++ bytes ++ back, (front ++ bytes).length⟩

section Stored

theorem writes_put (bytes : List UInt8) : Writes (fun out => out.put bytes) bytes := by
  intro front old back hlen
  show Option.map _ (store (front ++ old ++ back) front.length bytes) = _
  rw [store_between hlen, Option.map_some, List.length_append]

theorem writes_nothing : Writes some [] := by
  intro front old back hlen
  obtain rfl : old = [] := List.length_eq_zero_iff.mp hlen.symm
  simp

/-- Two stores behind one another fill the place of both. -/
theorem Writes.bind {first second : Out → Access Out} {xs ys : List UInt8}
    (h : Writes first xs) (h' : Writes second ys) :
    Writes (fun out => (first out).bind second) (xs ++ ys) := by
  intro front old back hlen
  rw [List.length_append] at hlen
  have htake : xs.length = (old.take xs.length).length := by
    rw [List.length_take]
    omega
  have hdrop : ys.length = (old.drop xs.length).length := by
    rw [List.length_drop]
    omega
  have hold : front ++ old ++ back =
      front ++ old.take xs.length ++ (old.drop xs.length ++ back) := by
    rw [List.append_assoc, List.append_assoc, ← List.append_assoc (old.take _),
      List.take_append_drop]
  have hsecond := h' (front ++ xs) (old.drop xs.length) back hdrop
  show (first ⟨front ++ old ++ back, front.length⟩).bind second = _
  rw [hold, h front _ _ htake, Option.bind_some, ← List.append_assoc (front ++ xs), hsecond,
    List.append_assoc front]

theorem writes_u32 {n : Nat} (h : n < 2 ^ 32) :
    Writes (fun out => storeU32 out (UInt32.ofNat n)) (bigEndian 4 n) := by
  have hbytes : htonu32 (UInt32.ofNat n) = bigEndian 4 n := by
    rw [htonu32_eq, UInt32.toNat_ofNat', Nat.mod_eq_of_lt h]
  rw [← hbytes]
  exact writes_put _

theorem writes_if (p : Prop) [Decidable p] (bytes : List UInt8) :
    Writes (fun out => if p then out.put bytes else some out) (if p then bytes else []) := by
  split
  · exact writes_put bytes
  · exact writes_nothing

theorem writes_copy (bytes : List UInt8) :
    Writes (fun out => if 0 < bytes.length then out.put bytes else some out) bytes := by
  cases bytes with
  | nil => exact writes_nothing
  | cons b bytes =>
      have hcopy := writes_if (0 < (b :: bytes).length) (b :: bytes)
      rwa [if_pos (List.length_pos_of_ne_nil (List.cons_ne_nil b bytes))] at hcopy

theorem writes_str {bytes : List UInt8} (hfits : bytes.length < 2 ^ 32) :
    Writes (fun out => storeStr out bytes) (putSized 4 bytes) :=
  (writes_u32 hfits).bind (writes_copy bytes)

theorem positive_eq (bytes : List UInt8) :
    let p := bytes.dropWhile (· == 0)
    positive bytes = (if extraByte p = true then [0] else []) ++ p := by
  simp only [positive]
  split
  · rfl
  · rfl

theorem length_positive (bytes : List UInt8) :
    let p := bytes.dropWhile (· == 0)
    (positive bytes).length = p.length + (extraByte p).toNat := by
  intro p
  rw [positive_eq, List.length_append, Nat.add_comm]
  cases extraByte p <;> rfl

theorem writes_bignum {bytes : List UInt8} (hfits : (positive bytes).length < 2 ^ 32) :
    Writes (fun out => storeBignum2Bytes out bytes) (putSized 4 (positive bytes)) := by
  rw [putSized, length_positive, positive_eq]
  rw [length_positive] at hfits
  exact (writes_u32 hfits).bind ((writes_if _ [0]).bind (writes_copy _))

theorem writes_field (f : Field) (hfits : f.Fits) : Writes (fun out => f.store out) f.wire := by
  cases f with
  | u32 n =>
      have h := writes_u32 n.toNat_lt
      rwa [UInt32.ofNat_toNat] at h
  | str bytes => exact writes_str hfits
  | bignum bytes => exact writes_bignum hfits

theorem writes_fields {fields : List Field} (hfits : ∀ f ∈ fields, f.Fits) :
    Writes (storeFields fields) (fields.flatMap Field.wire) := by
  induction fields with
  | nil => exact writes_nothing
  | cons f fields ih =>
      exact (writes_field f (hfits f List.mem_cons_self)).bind
        (ih fun g hg => hfits g (List.mem_cons_of_mem f hg))

theorem dropWhile_positive (bytes : List UInt8) :
    (positive bytes).dropWhile (· == 0) = bytes.dropWhile (· == 0) := by
  have hsame : (bytes.dropWhile (· == 0)).dropWhile (· == 0) = bytes.dropWhile (· == 0) :=
    List.dropWhile_eq_self_iff.mpr fun hl => List.dropWhile_get_zero_not _ _ hl
  rw [positive]
  split
  · rw [List.dropWhile_cons_of_pos rfl, hsame]
  · exact hsame

theorem reader_wire (f : Field) (hfits : f.Fits) (rest : List UInt8) :
    f.get.reader (f.wire ++ rest) = some (f.value, rest) := by
  cases f with
  | u32 n =>
      rw [Field.get, Get.reader, fixed, Field.wire, word_bigEndian (by have := n.toNat_lt; omega)]
      simp only [Option.map_some, UInt32.ofNat_toNat, Field.value]
  | str bytes =>
      have hlt : bytes.length < 256 ^ 4 := Nat.lt_of_lt_of_eq hfits (by decide)
      rw [Field.get, Get.reader, Field.wire, sized_putSized hlt]
      rfl
  | bignum bytes =>
      have hlt : (positive bytes).length < 256 ^ 4 := Nat.lt_of_lt_of_eq hfits (by decide)
      rw [Field.get, Get.reader, Field.wire, sized_putSized hlt, Option.map_some,
        dropWhile_positive]
      rfl

theorem readAll_wire {fields : List Field} (hfits : ∀ f ∈ fields, f.Fits) (rest : List UInt8) :
    readAll (fields.map Field.get) (fields.flatMap Field.wire ++ rest) =
      some (fields.map Field.value, rest) := by
  induction fields with
  | nil => rfl
  | cons f fields ih =>
      rw [List.map_cons, List.flatMap_cons, List.append_assoc, readAll,
        reader_wire f (hfits f List.mem_cons_self), Option.bind_some,
        ih fun g hg => hfits g (List.mem_cons_of_mem f hg)]
      rfl

/-- The store functions fill exactly the place that was left for their fields, and getting the same
kinds of fields from there gives them back, down to the end of the buffer. -/
theorem stored_fields_read_back {fields : List Field} (hfits : ∀ f ∈ fields, f.Fits)
    {front old back : List UInt8} (hold : (fields.flatMap Field.wire).length = old.length)
    (hsmall : (front ++ old).length < 2 ^ 32) :
    ∃ block len, storeFields fields ⟨front ++ old ++ back, front.length⟩ = some ⟨block, len⟩ ∧
      block.take front.length = front ∧ block.drop len = back ∧
      ∃ buf, runGets (fields.map Field.get) ⟨block, front.length, len⟩ =
        some (some (fields.map Field.value), buf) ∧ eob buf = true := by
  let wire := fields.flatMap Field.wire
  have hstore := writes_fields hfits front old back hold
  have hplaced : Placed ⟨front ++ wire ++ back, front.length, (front ++ wire).length⟩ := by
    rw [List.length_append] at hsmall
    constructor <;> simp only [List.length_append, wire] <;> omega
  have hrest : StringBuf.rest ⟨front ++ wire ++ back, front.length, (front ++ wire).length⟩ =
      wire := by
    rw [StringBuf.rest, List.take_left, List.drop_left]
  obtain ⟨out, hout, hgot⟩ := got_runGets (fields.map Field.get) hplaced
  have hread := readAll_wire hfits []
  rw [List.append_nil] at hread
  rw [hrest, hread] at hgot
  refine ⟨_, _, hstore, ?_, ?_, out.2, ?_, ?_⟩
  · rw [List.append_assoc, List.take_left]
  · rw [List.drop_left]
  · have hvalue : out.1 = some (fields.map Field.value) := hgot.value
    rw [hout, ← hvalue]
  · rw [eob_iff hgot.later.placed]
    exact hgot.rest _ rfl

/-- A number with its highest bit set between two other bytes. -/
theorem stored_fields_read_back_number :
    ∃ block len, storeFields [.str [104, 105], .bignum [0, 0x80]]
          ⟨7 :: List.replicate 12 0 ++ [8], 1⟩ =
        some ⟨block, len⟩ ∧ block.take 1 = [7] ∧ block.drop len = [8] ∧
      ∃ buf, runGets [.string, .bignum] ⟨block, 1, len⟩ =
        some (some [.string [104, 105], .bignum [0x80]], buf) ∧ eob buf = true :=
  @stored_fields_read_back [.str [104, 105], .bignum [0, 0x80]]
    (by decide) [7] (List.replicate 12 0) [8] (by decide) (by decide)

end Stored

end InfoGlobe.Ssh
