import InfoGlobe.Library.ListParts
import InfoGlobe.Library.StringCompare
import InfoGlobe.Firmware.DisplaySources

/-!
The network interfaces of the module, and the address that is shown on the display. An interface
is recognized by its description: `is_our_netif`, which two files have, compares all characters of
the prefix but the last.
-/

namespace InfoGlobe.LookupIp
open FlatMemory ListParts StringCompare DisplaySources

/-- An interface of the network stack, as far as the search looks at it. -/
structure Netif where
  desc : CText
  ip : UInt8 × UInt8 × UInt8 × UInt8

def isOurNetif (pre : CText) (netif : Netif) : Bool :=
  strncmp pre.chars netif.desc.chars (pre.strlen - 1).toNat == 0

/-- The prefix that `lookup_ip` asks for, which is the `TAG` of `wifi_connect.c`. -/
def exampleConnect : CText := ⟨asciiBytes "example_connect", by decide, by decide⟩

structure LookupState where
  ipCount : Nat
  ipAddrStringBuff : Nat → UInt8

/-- One turn of the loop. An interface of the list has an address, so `esp_netif_get_ip_info` does
not fail. -/
def visit (s : LookupState) (netif : Netif) : LookupState :=
  if isOurNetif exampleConnect netif then
    { ipCount := s.ipCount + 1
      ipAddrStringBuff := writeAt s.ipAddrStringBuff 0 (ipText (some netif.ip) ++ [0]) }
  else s

/-- `esp_netif_next` goes through the interfaces in their order. -/
def lookupIp (interfaces : List Netif) (ipAddrStringBuff : Nat → UInt8) : LookupState :=
  interfaces.foldl visit ⟨0, ipAddrStringBuff⟩

/-- The description starts with the prefix. -/
def Owned (pre : CText) (netif : Netif) : Prop := pre.chars <+: netif.desc.chars

instance (pre : CText) : DecidablePred (Owned pre) :=
  fun netif => inferInstanceAs (Decidable (pre.chars <+: netif.desc.chars))

/-- `found` are the interfaces that were found: their number, and the address of the last one. -/
structure LookedUp (found : List Netif) (buff : Nat → UInt8) (s : LookupState) : Prop where
  counted : s.ipCount = found.length
  text : ∀ netif, found.getLast? = some netif →
    HoldsString s.ipAddrStringBuff 0 (ipText (some netif.ip))
  unchanged : found = [] → s.ipAddrStringBuff = buff

/-- A description that agrees with the prefix up to its last character has that one too. -/
def EndsAlike (pre : CText) (netif : Netif) : Prop :=
  pre.chars.dropLast <+: netif.desc.chars →
    netif.desc.chars[pre.chars.length - 1]? = pre.chars.getLast?

/-! ### One interface -/

section Interface
variable {pre : CText} {netif : Netif}

theorem isOurNetif_iff (hpre : pre.chars ≠ []) :
    isOurNetif pre netif = true ↔ pre.chars.dropLast <+: netif.desc.chars := by
  rw [isOurNetif, beq_iff_eq, CText.toNat_strlen_sub_one hpre,
    strncmp_eq_zero_iff pre.free netif.desc.free, ← List.dropLast_eq_take,
    List.prefix_iff_eq_take, List.length_dropLast]

theorem owned_iff (hpre : pre.chars ≠ []) : Owned pre netif ↔
    pre.chars.dropLast <+: netif.desc.chars ∧
      netif.desc.chars[pre.chars.length - 1]? = pre.chars.getLast? := by
  obtain ⟨init, c, hchars⟩ := (List.eq_nil_or_concat' pre.chars).resolve_left hpre
  have hlast : (init ++ [c]).length - 1 = init.length := by simp
  rw [Owned, hchars, List.dropLast_concat, hlast, List.getLast?_concat]
  constructor
  · rintro ⟨rest, hrest⟩
    rw [← hrest, List.append_assoc]
    exact ⟨List.prefix_append _ _, by simp⟩
  · rintro ⟨⟨rest, hrest⟩, hnext⟩
    rw [← hrest, List.getElem?_append_right (Nat.le_refl _), Nat.sub_self] at hnext
    cases rest with
    | nil => simp at hnext
    | cons d rest =>
        obtain rfl : d = c := by simpa using hnext
        exact ⟨rest, by simp [← hrest]⟩

/-- The test and the prefix agree on an interface unless the last character decides. -/
theorem isOurNetif_iff_owned_iff (hpre : pre.chars ≠ []) :
    (isOurNetif pre netif = true ↔ Owned pre netif) ↔ EndsAlike pre netif := by
  rw [isOurNetif_iff hpre, owned_iff hpre, iff_self_and]
  rfl

theorem isOurNetif_of_owned (hpre : pre.chars ≠ []) (h : Owned pre netif) :
    isOurNetif pre netif = true :=
  (isOurNetif_iff hpre).mpr ((owned_iff hpre).mp h).1

end Interface

/-! ### The search -/

theorem zero_notMem_decimal (b : UInt8) : 0 ∉ decimal b := by
  intro hzero
  obtain ⟨c, hc, hcode⟩ := List.mem_map.mp hzero
  rw [Nat.toList_repr] at hc
  have hdigit : c.isDigit := Nat.isDigit_of_mem_toDigits (by decide) (by decide) hc
  have hrange : 48 ≤ c.toNat ∧ c.toNat ≤ 57 := by
    simpa [Char.isDigit, UInt32.le_iff_toNat_le] using hdigit
  have hmod := congrArg UInt8.toNat hcode
  rw [UInt8.toNat_ofNat'] at hmod
  simp only [UInt8.toNat_zero] at hmod
  omega

theorem zero_notMem_ipText (ip : UInt8 × UInt8 × UInt8 × UInt8) : 0 ∉ ipText (some ip) := by
  obtain ⟨a, b, c, d⟩ := ip
  have hdot : (0 : UInt8) ∉ asciiBytes "." := by decide
  simp [ipText, zero_notMem_decimal, hdot]

/-- `sprintf` leaves the text of the address. -/
theorem holdsString_visit (m : Nat → UInt8) (ip : UInt8 × UInt8 × UInt8 × UInt8) :
    HoldsString (writeAt m 0 (ipText (some ip) ++ [0])) 0 (ipText (some ip)) := by
  refine ⟨zero_notMem_ipText ip, ?_⟩
  have hlen : (ipText (some ip)).length + 1 = (ipText (some ip) ++ [0]).length := by simp
  rw [hlen, readAt_writeAt]

theorem lookedUp_ours (interfaces : List Netif) (buff : Nat → UInt8) :
    LookedUp (interfaces.filter (isOurNetif exampleConnect)) buff (lookupIp interfaces buff) := by
  induction interfaces using List.reverseRecOn with
  | nil => exact ⟨rfl, by simp, fun _ => rfl⟩
  | append_singleton interfaces netif ih =>
      have hstep : lookupIp (interfaces ++ [netif]) buff =
          visit (lookupIp interfaces buff) netif := by
        rw [lookupIp, List.foldl_append]
        rfl
      rw [hstep, List.filter_append, visit]
      by_cases hours : isOurNetif exampleConnect netif = true
      · rw [if_pos hours, List.filter_cons_of_pos hours, List.filter_nil]
        refine ⟨?_, ?_, by simp⟩
        · rw [List.length_append, ih.counted]
          rfl
        · intro last hlast
          obtain rfl : netif = last := by simpa using hlast
          dsimp only
          exact holdsString_visit _ _
      · rw [if_neg hours, List.filter_cons_of_neg hours, List.filter_nil, List.append_nil]
        exact ih

/-- The test is right about an interface, and the search about a list of them, exactly when the last
character of the prefix does not decide. -/
theorem lookup_ip_by_description {pre : CText} (hpre : pre.chars ≠ []) (netif : Netif)
    (interfaces : List Netif) (buff : Nat → UInt8) :
    ((isOurNetif pre netif = true ↔ Owned pre netif) ↔ EndsAlike pre netif) ∧
      (LookedUp (interfaces.filter (Owned exampleConnect ·)) buff (lookupIp interfaces buff) ↔
        ∀ netif ∈ interfaces, EndsAlike exampleConnect netif) := by
  refine ⟨isOurNetif_iff_owned_iff hpre, fun h netif hnetif => ?_, fun h => ?_⟩
  · have hcounted := h.counted.symm.trans (lookedUp_ours interfaces buff).counted
    have hwithin : ∀ netif, decide (Owned exampleConnect netif) = true →
        isOurNetif exampleConnect netif = true := fun netif howned =>
      isOurNetif_of_owned (by decide) (of_decide_eq_true howned)
    refine (isOurNetif_iff_owned_iff (by decide)).mp
      ⟨fun hours => ?_, isOurNetif_of_owned (by decide)⟩
    exact of_decide_eq_true (imp_of_length_filter hwithin hcounted.symm netif hnetif hours)
  · have hsame : interfaces.filter (Owned exampleConnect ·) =
        interfaces.filter (isOurNetif exampleConnect) := by
      refine List.filter_congr fun netif hnetif => ?_
      have hagree := (isOurNetif_iff_owned_iff (by decide)).mpr (h netif hnetif)
      rw [Bool.eq_iff_iff, hagree, decide_eq_true_iff]
    rw [hsame]
    exact lookedUp_ours interfaces buff

def station : Netif := ⟨⟨asciiBytes "example_connect: sta", by decide, by decide⟩, 192, 168, 1, 7⟩

/-- A description that ends one character short of the prefix. -/
def bridge : Netif := ⟨⟨asciiBytes "example_connec", by decide, by decide⟩, 10, 0, 0, 1⟩

theorem lookup_ip_by_description_station :
    (isOurNetif exampleConnect station = true ↔ Owned exampleConnect station) ∧
      LookedUp ([station].filter (Owned exampleConnect ·)) (fun _ => 0)
        (lookupIp [station] fun _ => 0) := by
  have halike : EndsAlike exampleConnect station := fun _ => by decide
  have hright := lookup_ip_by_description (by decide : exampleConnect.chars ≠ []) station [station]
    fun _ => 0
  exact ⟨hright.1.mpr halike, hright.2.mpr (List.forall_mem_singleton.mpr halike)⟩

theorem lookup_ip_short_description :
    ¬LookedUp ([bridge].filter (Owned exampleConnect ·)) (fun _ => 0)
        (lookupIp [bridge] fun _ => 0) ∧
      ¬(isOurNetif exampleConnect bridge = true ↔ Owned exampleConnect bridge) := by
  have hours : isOurNetif exampleConnect bridge = true := by decide
  have howned : ¬Owned exampleConnect bridge := by decide
  refine ⟨fun h => ?_, fun h => howned (h.mp hours)⟩
  have hcounted := h.counted
  rw [List.filter_cons_of_neg (by simpa using howned), lookupIp, List.foldl_cons, visit,
    if_pos hours] at hcounted
  exact absurd hcounted (by decide)

end InfoGlobe.LookupIp
