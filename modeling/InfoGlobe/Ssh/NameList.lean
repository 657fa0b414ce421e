import InfoGlobe.Library.ListParts
import InfoGlobe.Ssh.MessageFields

/-!
Looking up a name in a list of names that a server has sent. The list is a part of a packet and has
no terminator; the search for a comma goes on for one byte behind it. That byte belongs to the
packet, and what it is does not matter.
-/

namespace InfoGlobe.Ssh
open CheckedBlock ListParts

def comma : UInt8 := 44

/-- Whether the needle is at `s` and followed by a comma or by the end of the haystack. -/
def needleAt (block : List UInt8) (haystack haystackLen : Nat) (needle : List UInt8) (s : Nat) :
    Access Bool :=
  (agrees block s needle).bind fun same =>
    if same then
      if s - haystack + needle.length = haystackLen then some true
      else (load block (s + needle.length)).map (· == comma)
    else some false

/-- The loop over the commas, at most as many as there are bytes. -/
def agreeLoop (block : List UInt8) (haystack haystackLen : Nat) (needle : List UInt8) :
    Nat → Nat → Nat → Access (Option Nat)
  | 0, _, _ => none
  | turns + 1, s, left =>
      (memchr block comma s left).bind fun
        | none => some none
        | some s =>
            let left := haystack + haystackLen - s
            if 1 ≤ left ∧ left ≤ haystackLen ∧ needle.length < left then
              (needleAt block haystack haystackLen needle (s + 1)).bind fun found =>
                if found then some (some (s + 1))
                else agreeLoop block haystack haystackLen needle turns (s + 1) left
            else some none

/-- Where the needle is in the haystack, both given by pointers that are not null. -/
def kexAgreeInstr (block : List UInt8) (haystack haystackLen : Nat) (needle : List UInt8) :
    Access (Option Nat) :=
  if haystackLen < needle.length ∨ needle.length = 0 then some none
  else
    (needleAt block haystack haystackLen needle haystack).bind fun found =>
      if found then some (some haystack)
      else agreeLoop block haystack haystackLen needle (haystackLen + 1) haystack haystackLen

/-- Where a name starts in a list of names that begins at `off`. -/
def firstAt (needle : List UInt8) : Nat → List (List UInt8) → Option Nat
  | _, [] => none
  | off, name :: names =>
      if name = needle then some off else firstAt needle (off + name.length + 1) names

/-! ### The names of the list -/

section Names
variable {needle name : List UInt8} {names : List (List UInt8)} {off : Nat}

theorem isSome_firstAt : (firstAt needle off names).isSome = true ↔ needle ∈ names := by
  induction names generalizing off with
  | nil => simp [firstAt]
  | cons name names ih =>
      rw [firstAt]
      by_cases h : name = needle
      · simp [h]
      · rw [if_neg h, ih, List.mem_cons]
        exact (or_iff_right (Ne.symm h)).symm

theorem exists_firstAt (off : Nat) (hmem : needle ∈ names) :
    ∃ i, firstAt needle off names = some i :=
  Option.isSome_iff_exists.mp (isSome_firstAt.mpr hmem)

theorem firstAt_eq_none (off : Nat) (hnot : needle ∉ names) : firstAt needle off names = none :=
  Option.not_isSome_iff_eq_none.mp fun hsome => hnot (isSome_firstAt.mp hsome)

theorem le_of_firstAt {i : Nat} (h : firstAt needle off names = some i) : off ≤ i := by
  induction names generalizing off with
  | nil => cases h
  | cons name names ih =>
      rw [firstAt] at h
      split at h
      · exact Nat.le_of_eq (Option.some.inj h)
      · have := ih h
        omega

/-- The name is at the beginning exactly if it is the first one. -/
theorem firstAt_eq_off : firstAt needle off names = some off ↔ names.head? = some needle := by
  cases names with
  | nil => simp [firstAt]
  | cons name names =>
      rw [firstAt, List.head?_cons, Option.some.injEq]
      by_cases h : name = needle
      · rw [if_pos h]
        exact iff_of_true rfl h
      · rw [if_neg h]
        refine iff_of_false (fun hfirst => ?_) h
        have := le_of_firstAt hfirst
        omega

theorem firstAt_of_short (h : ∀ name ∈ names, name.length < needle.length) :
    firstAt needle off names = none :=
  firstAt_eq_none off fun hmem => Nat.lt_irrefl _ (h needle hmem)

theorem length_le_trailing (h : name ∈ names) : name.length ≤ (trailing comma names).length := by
  obtain ⟨before, after, rfl⟩ := List.append_of_mem h
  simp only [trailing, List.flatMap_append, List.flatMap_cons, List.length_append, List.length_cons]
  omega

theorem count_le_trailing (names : List (List UInt8)) :
    names.length ≤ (trailing comma names).length := by
  induction names with
  | nil => exact Nat.zero_le _
  | cons name names ih =>
      simp only [trailing, List.flatMap_cons, List.length_append, List.length_cons] at ih ⊢
      omega

/-- A name without commas is the first one where it is in front of a comma or of the end. -/
theorem eq_iff_stands (names : List (List UInt8)) (hname : comma ∉ name)
    (hneedle : comma ∉ needle) :
    name = needle ↔ needle <+: name ++ trailing comma names ∧
      ((name ++ trailing comma names).length = needle.length ∨
        (name ++ trailing comma names)[needle.length]? = some comma) := by
  constructor
  · rintro rfl
    refine ⟨List.prefix_append _ _, ?_⟩
    cases names with
    | nil => exact .inl (by simp [trailing])
    | cons next names => exact .inr (by simp [trailing])
  · rintro ⟨⟨t, ht⟩, hend⟩
    rw [← ht] at hend
    cases t with
    | nil =>
        rw [List.append_nil] at ht
        cases names with
        | nil => simpa [trailing] using ht.symm
        | cons next names =>
            refine absurd ?_ hneedle
            rw [ht]
            simp [trailing]
    | cons c t =>
        have hc : c = comma := by
          rcases hend with hlen | hget
          · simp at hlen
          · simpa using hget
        rw [hc] at ht
        cases names with
        | nil =>
            refine absurd ?_ hname
            rw [trailing, List.flatMap_nil, List.append_nil] at ht
            rw [← ht]
            simp
        | cons next names =>
            rw [trailing, List.flatMap_cons, List.cons_append] at ht
            have hsplit := congrArg (List.splitOn comma) ht
            rw [List.splitOn_append_cons_self_of_not_mem hneedle,
              List.splitOn_append_cons_self_of_not_mem hname] at hsplit
            exact (List.cons.inj hsplit).1.symm

end Names

/-! ### The search -/

section Search
variable {block needle name after : List UInt8} {names : List (List UInt8)} {z : UInt8}
  {haystack haystackLen s : Nat}

theorem needleAt_eq (hdrop : block.drop s = name ++ trailing comma names ++ z :: after)
    (hname : comma ∉ name) (hneedle : comma ∉ needle)
    (hfits : needle.length ≤ (name ++ trailing comma names).length)
    (hs : haystack ≤ s)
    (hend : s + (name ++ trailing comma names).length = haystack + haystackLen) :
    needleAt block haystack haystackLen needle s = some (decide (name = needle)) := by
  have hiff := eq_iff_stands names hname hneedle
  rw [needleAt, agrees_eq hdrop hfits, Option.bind_some]
  by_cases hfront : needle <+: name ++ trailing comma names
  · rw [decide_eq_true hfront, if_pos rfl]
    by_cases hlen : s - haystack + needle.length = haystackLen
    · rw [if_pos hlen]
      have heq : (name ++ trailing comma names).length = needle.length := by omega
      rw [decide_eq_true (hiff.mpr ⟨hfront, .inl heq⟩)]
    · rw [if_neg hlen]
      have hlt : needle.length < (name ++ trailing comma names).length := by omega
      have hget := List.getElem?_eq_getElem hlt
      have hload : load block (s + needle.length) =
          (name ++ trailing comma names)[needle.length]? := by
        rw [load, ← List.getElem?_drop, hdrop, List.getElem?_append_left hlt]
      rw [hload, hget, Option.map_some]
      rw [hget] at hiff
      congr 1
      rw [← Bool.coe_iff_coe, beq_iff_eq, decide_eq_true_iff, hiff, Option.some.injEq]
      exact ⟨fun h => ⟨hfront, .inr h⟩, fun h => h.2.resolve_left (by omega)⟩
  · rw [decide_eq_false hfront, decide_eq_false fun h => hfront (hiff.mp h).1]
    rfl

/-- Behind the last name there is no comma, or one that is outside of the list. -/
theorem agreeLoop_last {turns left : Nat} (hdrop : block.drop s = name ++ z :: after)
    (hname : comma ∉ name) (hend : s + name.length = haystack + haystackLen)
    (hleft : left = name.length ∨ left = name.length + 1) :
    agreeLoop block haystack haystackLen needle (turns + 1) s left = some none := by
  rcases hleft with rfl | rfl
  · rw [agreeLoop, memchr_missing hdrop hname rfl]
    rfl
  · by_cases hz : z = comma
    · rw [hz] at hdrop
      have hnone : ¬(1 ≤ haystack + haystackLen - (s + name.length) ∧
          haystack + haystackLen - (s + name.length) ≤ haystackLen ∧
          needle.length < haystack + haystackLen - (s + name.length)) := by omega
      rw [agreeLoop, memchr_found hdrop hname (Nat.lt_succ_self _), Option.bind_some]
      exact if_neg hnone
    · have hdrop' : block.drop s = (name ++ [z]) ++ after := by rw [hdrop, List.append_assoc]; rfl
      have hfree : comma ∉ name ++ [z] := by simp [hname, Ne.symm hz]
      rw [agreeLoop, memchr_missing hdrop' hfree (by simp)]
      rfl

theorem agreeLoop_eq {turns left : Nat}
    (hdrop : block.drop s = name ++ trailing comma names ++ z :: after)
    (hfree : ∀ p ∈ name :: names, comma ∉ p) (hneedle : comma ∉ needle)
    (hs : haystack ≤ s) (hend : s + (name ++ trailing comma names).length = haystack + haystackLen)
    (hleft : left = (name ++ trailing comma names).length ∨
      left = (name ++ trailing comma names).length + 1) (hturns : names.length < turns) :
    agreeLoop block haystack haystackLen needle turns s left =
      some (firstAt needle (s + name.length + 1) names) := by
  obtain ⟨turns, rfl⟩ := Nat.exists_eq_succ_of_ne_zero (Nat.ne_of_gt (Nat.zero_lt_of_lt hturns))
  have hname := hfree name List.mem_cons_self
  induction names generalizing turns s left name with
  | nil =>
      simp only [trailing, List.flatMap_nil, List.append_nil] at hdrop hend hleft
      exact agreeLoop_last hdrop hname hend hleft
  | cons next names ih =>
      have htrailing : trailing comma (next :: names) =
          comma :: (next ++ trailing comma names) := rfl
      rw [htrailing] at hdrop hend hleft
      rw [List.append_assoc, List.cons_append] at hdrop
      simp only [List.length_append, List.length_cons] at hend hleft
      have hnext : block.drop (s + name.length + 1) = next ++ trailing comma names ++ z :: after :=
        drop_succ_of_drop (drop_add_of_drop hdrop)
      have hlen : haystack + haystackLen - (s + name.length) =
          (next ++ trailing comma names).length + 1 := by
        rw [List.length_append]
        omega
      have hend' : s + name.length + 1 + (next ++ trailing comma names).length =
          haystack + haystackLen := by
        rw [List.length_append]
        omega
      rw [agreeLoop, memchr_found hdrop hname (by omega), Option.bind_some]
      simp only [hlen]
      by_cases hfits : needle.length ≤ (next ++ trailing comma names).length
      · rw [if_pos ⟨by omega, by omega, by omega⟩,
          needleAt_eq hnext (hfree next (by simp)) hneedle hfits (by omega) hend', Option.bind_some,
          firstAt]
        by_cases heq : next = needle
        · rw [decide_eq_true heq, if_pos rfl, if_pos heq]
        · rw [decide_eq_false heq, if_neg Bool.false_ne_true, if_neg heq]
          obtain ⟨turns, rfl⟩ : ∃ k, turns = k + 1 :=
            ⟨turns - 1, by simp only [List.length_cons] at hturns; omega⟩
          exact ih hnext (fun p hp => hfree p (List.mem_cons_of_mem name hp)) (by omega) hend'
            (.inr rfl) turns (Nat.lt_of_succ_lt_succ hturns) (hfree next (by simp))
      · rw [if_neg (by omega), firstAt_of_short]
        intro p hp
        cases hp with
        | head =>
            rw [List.length_append] at hfits
            omega
        | tail _ hp =>
            have := length_le_trailing hp
            rw [List.length_append] at hfits
            omega

/-- The search looks at the names one after another, whatever is behind the list, and does not
leave the block. -/
theorem kexAgreeInstr_eq {hay : List UInt8} (hdrop : block.drop haystack = hay ++ z :: after)
    (hneedle : comma ∉ needle) (hne : needle ≠ []) :
    kexAgreeInstr block haystack hay.length needle =
      some (firstAt needle haystack (hay.splitOn comma)) := by
  obtain ⟨name, names, hsplit, hhay, hfree⟩ := exists_pieces comma hay
  have hpos := List.length_pos_of_ne_nil hne
  rw [hsplit, kexAgreeInstr]
  by_cases hshort : hay.length < needle.length
  · rw [if_pos (.inl hshort), firstAt_of_short]
    intro p hp
    rw [hhay, List.length_append] at hshort
    cases hp with
    | head => omega
    | tail _ hp =>
        have := length_le_trailing hp
        omega
  · rw [if_neg (by omega)]
    rw [hhay] at hdrop
    have hlen : hay.length = (name ++ trailing comma names).length := congrArg List.length hhay
    have hnames := count_le_trailing names
    rw [needleAt_eq hdrop (hfree name (by simp)) hneedle (by omega) (Nat.le_refl _) (by omega),
      Option.bind_some, firstAt]
    by_cases heq : name = needle
    · rw [decide_eq_true heq, if_pos rfl, if_pos heq]
    · rw [decide_eq_false heq, if_neg Bool.false_ne_true, if_neg heq]
      refine agreeLoop_eq hdrop hfree hneedle (Nat.le_refl _) (by omega) (.inl hlen) ?_
      rw [hlen, List.length_append]
      omega

end Search

end InfoGlobe.Ssh
