import InfoGlobe.Client.UserInput

/-!
The hex entry of the Tx Data tab. Whatever is typed, its hex digits are read in pairs, a last one
without a partner alone; so bytes that are written with two digits each are read back, whatever
stands between the digits.
-/

namespace InfoGlobe.UserInput

def lowerDigits : List Char := "0123456789abcdef".toList
def upperDigits : List Char := "0123456789ABCDEF".toList

/-- The character writes the number, in one of the two cases. -/
def Writes (c : Char) (n : Nat) : Prop := lowerDigits[n]? = some c ∨ upperDigits[n]? = some c

/-- The number that a hex digit writes. -/
def digitValue (c : Char) : Nat := lowerDigits.idxOf c.toLower

/-- The digits of a text, in their order. -/
def hexDigits (text : List Char) : List Char := text.filter isHexDigit

/-- The bytes of a row of digits: two make a byte, and a last one that is left is a byte. -/
def paired : List Char → List UInt8
  | [] => []
  | [c] => [UInt8.ofNat (digitValue c)]
  | a :: b :: rest => UInt8.ofNat (16 * digitValue a + digitValue b) :: paired rest

/-- The text writes each of the bytes with two digits. Characters that are no digits stand anywhere,
also between the two digits of a byte. -/
inductive Renders : List UInt8 → List Char → Prop
  | done : Renders [] []
  | separator {bytes text} (c : Char) (other : isHexDigit c = false) (rest : Renders bytes text) :
      Renders bytes (c :: text)
  | byte {bytes text} (b : UInt8) (high low : Char) (gap : List Char)
      (writesHigh : Writes high (b.toNat / 16)) (writesLow : Writes low (b.toNat % 16))
      (others : ∀ c ∈ gap, isHexDigit c = false) (rest : Renders bytes text) :
      Renders (b :: bytes) (high :: (gap ++ low :: text))

/-! ### Digits -/

/-- There are twenty-two hex digits. -/
theorem mem_digits {c : Char} (h : isHexDigit c = true) : c ∈ lowerDigits ++ upperDigits := by
  have hcodes : (lowerDigits ++ upperDigits).map Char.toNat = (List.range' 48 10 ++
      List.range' 97 6) ++ (List.range' 48 10 ++ List.range' 65 6) := rfl
  have hcode : c.toNat ∈ (lowerDigits ++ upperDigits).map Char.toNat := by
    rw [hcodes]
    simp only [List.mem_append, List.mem_range'_1]
    simp only [isHexDigit, decide_eq_true_eq, Char.le_def, UInt32.le_iff_toNat_le] at h
    change (48 ≤ c.toNat ∧ c.toNat ≤ 57) ∨ (97 ≤ c.toNat ∧ c.toNat ≤ 102) ∨
      (65 ≤ c.toNat ∧ c.toNat ≤ 70) at h
    omega
  obtain ⟨d, hd, heq⟩ := List.mem_map.mp hcode
  rwa [← Char.toNat_inj.mp heq]

theorem hexDigit_eq {c : Char} (h : isHexDigit c = true) : hexDigit c = some (digitValue c) := by
  have hall : (lowerDigits ++ upperDigits).all (fun d => hexDigit d == some (digitValue d)) := by
    decide
  exact eq_of_beq (List.all_eq_true.mp hall c (mem_digits h))

theorem Writes.isHexDigit {c : Char} {n : Nat} (h : Writes c n) : isHexDigit c = true := by
  have hlower : lowerDigits.all UserInput.isHexDigit = true := by decide
  have hupper : upperDigits.all UserInput.isHexDigit = true := by decide
  rcases h with h | h
  · exact List.all_eq_true.mp hlower c (List.mem_of_getElem? h)
  · exact List.all_eq_true.mp hupper c (List.mem_of_getElem? h)

theorem Writes.digitValue {c : Char} {n : Nat} (h : Writes c n) : digitValue c = n := by
  have hlower : ∀ i (hi : i < lowerDigits.length), UserInput.digitValue lowerDigits[i] = i := by
    decide
  have hupper : ∀ i (hi : i < upperDigits.length), UserInput.digitValue upperDigits[i] = i := by
    decide
  rcases h with h | h
  · obtain ⟨hn, rfl⟩ := List.getElem?_eq_some_iff.mp h
    exact hlower n hn
  · obtain ⟨hn, rfl⟩ := List.getElem?_eq_some_iff.mp h
    exact hupper n hn

/-! ### The conversion -/

/-- The blanks are gone already. -/
theorem hexText_eq (inputText : String) :
    hexText inputText = padOdd (hexDigits inputText.toList) := by
  have hblank : ∀ c ∈ hexDigits inputText.toList, c ≠ ' ' := by
    rintro c hc rfl
    exact absurd (List.mem_filter.mp hc).2 (by decide)
  have hkept : (hexDigits inputText.toList).filter (· ≠ ' ') = hexDigits inputText.toList :=
    List.filter_eq_self.mpr fun c hc => decide_eq_true (hblank c hc)
  exact congrArg padOdd hkept

/-- The '0' goes in front of the last digit, behind all pairs. -/
theorem padOdd_cons_cons (a b : Char) (rest : List Char) :
    padOdd (a :: b :: rest) = a :: b :: padOdd rest := by
  unfold padOdd
  rw [List.length_cons, List.length_cons, Nat.add_assoc, Nat.add_mod_right]
  by_cases hodd : rest.length % 2 = 1
  · rw [if_pos hodd, if_pos hodd]
    have hrest : rest ≠ [] := by
      rintro rfl
      exact absurd hodd (by decide)
    obtain ⟨k, hk⟩ := Nat.exists_eq_succ_of_ne_zero (mt List.length_eq_zero_iff.mp hrest)
    rw [List.dropLast_cons_of_ne_nil (by simp), List.dropLast_cons_of_ne_nil hrest, hk]
    rfl
  · rw [if_neg hodd, if_neg hodd]

theorem fromHex_padOdd : ∀ digits : List Char, (∀ c ∈ digits, isHexDigit c = true) →
    fromHex (padOdd digits) = some (paired digits)
  | [], _ => rfl
  | [c], h => by
      have hpad : padOdd [c] = ['0', c] := rfl
      have hzero : hexDigit '0' = some 0 := rfl
      rw [hpad, fromHex, hzero, hexDigit_eq (h c (by simp))]
      simp [fromHex, paired]
  | a :: b :: rest, h => by
      have hrest := fromHex_padOdd rest fun c hc => h c (by simp [hc])
      rw [padOdd_cons_cons, fromHex, hexDigit_eq (h a (by simp)), hexDigit_eq (h b (by simp)),
        hrest]
      rfl

theorem length_paired : ∀ digits : List Char, (paired digits).length = (digits.length + 1) / 2
  | [] => rfl
  | [_] => by simp [paired]
  | _ :: _ :: rest => by
      rw [paired, List.length_cons, length_paired rest, List.length_cons, List.length_cons]
      omega

theorem bytesResult_eq (inputText : String) :
    bytesResult inputText = some (paired (hexDigits inputText.toList)) := by
  rw [bytesResult, hexText_eq]
  exact fromHex_padOdd _ fun c hc => (List.mem_filter.mp hc).2

/-! ### Written bytes -/

theorem paired_of_renders {bytes : List UInt8} {text : List Char} (h : Renders bytes text) :
    paired (hexDigits text) = bytes := by
  induction h with
  | done => rfl
  | separator c other _ ih =>
      rw [hexDigits, List.filter_cons_of_neg (by simp [other])]
      exact ih
  | byte b high low gap writesHigh writesLow others _ ih =>
      have hgap : gap.filter isHexDigit = [] :=
        List.filter_eq_nil_iff.mpr fun c hc => by simp [others c hc]
      rw [hexDigits, List.filter_cons_of_pos writesHigh.isHexDigit, List.filter_append, hgap,
        List.nil_append, List.filter_cons_of_pos writesLow.isHexDigit, paired,
        writesHigh.digitValue, writesLow.digitValue, Nat.div_add_mod, UInt8.ofNat_toNat]
      exact congrArg (b :: ·) ih

/-- The entry takes every text, for the bytes that its digits make, and it undoes every way to
write bytes with two digits each. -/
theorem hex_entry_reads :
    (∀ inputText : String, ∃ bytes, bytesResult inputText = some bytes ∧
      bytes = paired (hexDigits inputText.toList) ∧
      bytes.length = ((hexDigits inputText.toList).length + 1) / 2) ∧
    ∀ (bytes : List UInt8) (inputText : String), Renders bytes inputText.toList →
      bytesResult inputText = some bytes := by
  refine ⟨fun inputText => ?_, fun bytes inputText h => ?_⟩
  · exact ⟨_, bytesResult_eq inputText, rfl, length_paired _⟩
  · rw [bytesResult_eq, paired_of_renders h]

theorem renders_mixed : Renders [0x4f, 0xa0] "x4-F, a0;".toList := by
  have hdash : ∀ c ∈ ['-'], isHexDigit c = false := List.forall_mem_singleton.mpr rfl
  refine .separator 'x' rfl (.byte 0x4f '4' 'F' ['-'] (.inl rfl) (.inr rfl) hdash ?_)
  refine .separator ',' rfl (.separator ' ' rfl ?_)
  refine .byte 0xa0 'a' '0' [] (.inl rfl) (.inl rfl) (List.forall_mem_nil _) ?_
  exact .separator ';' rfl .done

theorem hex_entry_reads_mixed :
    (∃ bytes, bytesResult "1 2 3" = some bytes ∧ bytes.length = 2) ∧
      bytesResult "x4-F, a0;" = some [0x4f, 0xa0] := by
  obtain ⟨bytes, hbytes, _, hlen⟩ := hex_entry_reads.1 "1 2 3"
  refine ⟨⟨bytes, hbytes, hlen.trans (by decide)⟩, ?_⟩
  exact hex_entry_reads.2 [0x4f, 0xa0] "x4-F, a0;" renders_mixed

end InfoGlobe.UserInput
