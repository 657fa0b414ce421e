import InfoGlobe.Ssh.KexAgree

/-!
The negotiation of the methods. What the library agrees on is, for every packet that a server can
send, the first method in the order of the client that the server has offered; and for every packet
it stays within it.
-/

namespace InfoGlobe.Ssh
open CheckedBlock StringCompare WireFormat

/-- The names of each kind, in the order of the one that offers them. -/
structure Offer where
  kex : List (List UInt8)
  hostkey : List (List UInt8)
  cryptCs : List (List UInt8)
  cryptSc : List (List UInt8)
  macCs : List (List UInt8)
  macSc : List (List UInt8)
  compCs : List (List UInt8)
  compSc : List (List UInt8)

structure Agreement where
  kex : KexMethod
  hostkey : HostkeyMethod
  cryptCs : Method
  cryptSc : Method
  macCs : Method
  macSc : Method
  compCs : Method
  compSc : Method

section Preferences
variable {μ : Type} [Named μ]

/-- The methods of the client in the order in which it prefers them. -/
def preferred (prefs : Option CText) (methods : List μ) : List μ :=
  match prefs with
  | some text => (text.chars.splitOn comma).filterMap (kexGetMethodByName methods)
  | none => methods

/-- Preferences only name methods of the table. -/
def Supported (prefs : Option CText) (methods : List μ) : Prop :=
  ∀ text ∈ prefs, ∀ s ∈ text.chars.splitOn comma, s ≠ [] →
    (kexGetMethodByName methods s).isSome = true

/-- The first method that is offered. -/
def firstOffered (prefs : Option CText) (methods : List μ) (names : List (List UInt8)) :
    Option μ :=
  (preferred prefs methods).find? fun m => decide (nameOf m ∈ names)

end Preferences

/-- The first host key that is offered and suits a key exchange. -/
def hostkeyFor (tables : Tables) (session : Session) (hostkey : List (List UInt8))
    (k : KexMethod) : Option HostkeyMethod :=
  (preferred session.hostkeyPrefs tables.hostkey).find? fun h =>
    decide (nameOf h ∈ hostkey) && hostkeySuits k h

/-- The first key exchange that is offered with a host key that suits it, and the first such key. -/
def firstKexHostkey (tables : Tables) (session : Session) (kex hostkey : List (List UInt8)) :
    Option (KexMethod × HostkeyMethod) :=
  (preferred session.kexPrefs tables.kex).findSome? fun k =>
    if nameOf k ∈ kex then (hostkeyFor tables session hostkey k).map fun h => (k, h) else none

def negotiate (tables : Tables) (session : Session) (o : Offer) : Option Agreement :=
  (firstKexHostkey tables session o.kex o.hostkey).bind fun k =>
    (firstOffered session.localData.cryptPrefs tables.crypt o.cryptCs).bind fun cryptCs =>
      (firstOffered session.remoteData.cryptPrefs tables.crypt o.cryptSc).bind fun cryptSc =>
        (firstOffered session.localData.macPrefs tables.mac o.macCs).bind fun macCs =>
          (firstOffered session.remoteData.macPrefs tables.mac o.macSc).bind fun macSc =>
            (firstOffered session.localData.compPrefs tables.comp o.compCs).bind fun compCs =>
              (firstOffered session.remoteData.compPrefs tables.comp o.compSc).map fun compSc =>
                ⟨k.1, k.2, cryptCs, cryptSc, macCs, macSc, compCs, compSc⟩

/-- The first eight lists in a packet, behind its type and its cookie, and the byte behind them. -/
def serverOffer (data : List UInt8) : Option (Offer × Bool) :=
  (sizedMany 4 8 (data.drop 17)).bind fun
    | ([kex, hostkey, cryptCs, cryptSc, macCs, macSc, compCs, compSc], burn :: _) =>
        some (⟨kex.splitOn comma, hostkey.splitOn comma, cryptCs.splitOn comma,
          cryptSc.splitOn comma, macCs.splitOn comma, macSc.splitOn comma, compCs.splitOn comma,
          compSc.splitOn comma⟩, lowBit burn)
    | _ => none

/-- The preferences of a session name methods that the library has. -/
structure Session.Valid (tables : Tables) (session : Session) : Prop where
  kex : Supported session.kexPrefs tables.kex
  hostkey : Supported session.hostkeyPrefs tables.hostkey
  cryptCs : Supported session.localData.cryptPrefs tables.crypt
  cryptSc : Supported session.remoteData.cryptPrefs tables.crypt
  macCs : Supported session.localData.macPrefs tables.mac
  macSc : Supported session.remoteData.macPrefs tables.mac
  compCs : Supported session.localData.compPrefs tables.comp
  compSc : Supported session.remoteData.compPrefs tables.comp

/-- What a caller has set. -/
def Session.prefs (session : Session) : List (Option CText) :=
  [session.kexPrefs, session.hostkeyPrefs, session.localData.cryptPrefs,
    session.remoteData.cryptPrefs, session.localData.macPrefs, session.remoteData.macPrefs,
    session.localData.compPrefs, session.remoteData.compPrefs, session.localData.langPrefs,
    session.remoteData.langPrefs, session.signAlgoPrefs]

/-- The session with its methods. -/
def Session.agreedOn (session : Session) (a : Agreement) (burn : Bool) : Session :=
  { session with
    localData := { session.localData with
      crypt := some a.cryptCs, mac := some a.macCs, comp := some a.compCs }
    remoteData := { session.remoteData with
      crypt := some a.cryptSc, mac := some a.macSc, comp := some a.compSc }
    kex := some a.kex
    hostkey := some a.hostkey
    burnOptimisticKexinit := burn }

/-! ### One kind of method -/

/-- A pointer to a list of names, with `n` bytes or more behind the list. -/
structure NamePtr.Holds (block : List UInt8) (p : NamePtr) (text : List UInt8) (n : Nat) :
    Prop where
  len : p.len = text.length
  there : ∃ tail, block.drop p.off = text ++ tail ∧ n ≤ tail.length

section Kinds
variable {μ σ : Type} [Named μ] {block text : List UInt8} {p : NamePtr}

theorem search_eq (h : p.Holds block text 1) {name : List UInt8} (hne : name ≠ [])
    (hcomma : comma ∉ name) :
    p.search block name = some (firstAt name p.off (text.splitOn comma)) := by
  obtain ⟨hlen, tail, hdrop, htail⟩ := h
  obtain ⟨z, after, rfl⟩ := List.exists_cons_of_length_pos htail
  rw [NamePtr.search, hlen]
  exact kexAgreeInstr_eq hdrop hcomma hne

theorem search_nil : p.search block [] = some none := by
  rw [NamePtr.search, kexAgreeInstr]
  exact if_pos (.inr rfl)

theorem nameOf_ne_nil (m : μ) : nameOf m ≠ [] := (Named.name m).nonempty

theorem comma_notMem_nameOf (m : μ) : comma ∉ nameOf m := (Named.name m).no_comma

theorem nameOf_of_byName {methods : List μ} {name : List UInt8} {m : μ}
    (h : kexGetMethodByName methods name = some m) : nameOf m = name := by
  simpa using List.find?_some h

theorem byName_nil (methods : List μ) : kexGetMethodByName methods [] = none := by
  refine List.find?_eq_none.mpr fun m _ hname => ?_
  exact nameOf_ne_nil m (of_decide_eq_true hname)

/-- What either loop finds, `f` being what it does with a method that has been found. -/
def outcome (names : List (List UInt8)) (off : Nat) (f : μ → Nat → Option σ) (methods : List μ) :
    Option σ :=
  methods.findSome? fun m => (firstAt (nameOf m) off names).bind (f m)

theorem outcome_cons (names : List (List UInt8)) (off : Nat) (f : μ → Nat → Option σ) (m : μ)
    (methods : List μ) : outcome names off f (m :: methods) =
      ((firstAt (nameOf m) off names).bind (f m)).or (outcome names off f methods) := by
  rw [outcome, List.findSome?_cons]
  cases (firstAt (nameOf m) off names).bind (f m) with
  | none => rfl
  | some x => rfl

section Loops
variable {f : μ → Nat → Option σ} {suits : μ → Nat → Access (Option σ)}

theorem methodsLoop_eq (h : p.Holds block text 1) (hsuits : ∀ m q, suits m q = some (f m q))
    (methods : List μ) :
    methodsLoop (p.search block) suits methods =
      some (outcome (text.splitOn comma) p.off f methods) := by
  induction methods with
  | nil => rfl
  | cons m methods ih =>
      rw [methodsLoop, search_eq h (nameOf_ne_nil m) (comma_notMem_nameOf m),
        Option.bind_some, outcome_cons]
      cases firstAt (nameOf m) p.off (text.splitOn comma) with
      | none => exact ih
      | some q =>
          simp only [hsuits, Option.bind_some]
          cases f m q with
          | none => exact ih
          | some x => rfl

theorem prefsLoop_eq (h : p.Holds block text 1) (hsuits : ∀ m q, suits m q = some (f m q))
    {methods : List μ} {prefs : List (List UInt8)} (hcomma : ∀ s ∈ prefs, comma ∉ s)
    (hsupported : ∀ s ∈ prefs, s ≠ [] → (kexGetMethodByName methods s).isSome = true) :
    prefsLoop (p.search block) methods suits prefs =
      some (outcome (text.splitOn comma) p.off f
        (prefs.filterMap (kexGetMethodByName methods))) := by
  induction prefs with
  | nil => rfl
  | cons s prefs ih =>
      have hrest := ih (fun t ht => hcomma t (List.mem_cons_of_mem s ht))
        fun t ht => hsupported t (List.mem_cons_of_mem s ht)
      by_cases hempty : s = []
      · subst hempty
        rw [List.filterMap_cons_none (byName_nil methods), ← hrest]
        cases prefs with
        | nil => rfl
        | cons t prefs =>
            rw [prefsLoop, search_nil]
            · rfl
            · simp
      · obtain ⟨m, hm⟩ := Option.isSome_iff_exists.mp (hsupported s List.mem_cons_self hempty)
        have hsearch := search_eq h hempty (hcomma s List.mem_cons_self)
        obtain ⟨c, s, rfl⟩ := List.exists_cons_of_ne_nil hempty
        simp only [prefsLoop, hm, hsearch, Option.bind_some]
        rw [List.filterMap_cons_some hm, outcome_cons, nameOf_of_byName hm]
        cases firstAt (c :: s) p.off (text.splitOn comma) with
        | none => exact hrest
        | some q =>
            simp only [hsuits, Option.bind_some]
            cases f m q with
            | none => exact hrest
            | some x => rfl

theorem agree_eq (h : p.Holds block text 1) (hsuits : ∀ m q, suits m q = some (f m q))
    {prefs : Option CText} {methods : List μ} (hsupported : Supported prefs methods) :
    agree (p.search block) prefs methods suits =
      some (outcome (text.splitOn comma) p.off f (preferred prefs methods)) := by
  cases prefs with
  | none => exact methodsLoop_eq h hsuits methods
  | some prefs =>
      obtain ⟨piece, pieces, hsplit, -, hfree⟩ := ListParts.exists_pieces comma prefs.chars
      refine prefsLoop_eq h hsuits ?_ (hsupported prefs rfl)
      rw [hsplit]
      exact hfree

end Loops

/-- The first method that is offered, where any will do. -/
theorem outcome_any (names : List (List UInt8)) (off : Nat) (f : μ → Bool) (methods : List μ) :
    outcome names off (fun m _ => if f m then some m else none) methods =
      methods.find? fun m => decide (nameOf m ∈ names) && f m := by
  induction methods with
  | nil => rfl
  | cons m methods ih =>
      rw [outcome_cons, List.find?_cons, ih]
      by_cases hmem : nameOf m ∈ names
      · obtain ⟨q, hq⟩ := exists_firstAt off hmem
        rw [hq, decide_eq_true hmem]
        cases f m <;> rfl
      · rw [firstAt_eq_none off hmem, decide_eq_false hmem]
        rfl

end Kinds

/-! ### The strings of the packet -/

section Strings
variable {buf : StringBuf}

theorem NamePtr.Holds.mono {block text : List UInt8} {p : NamePtr} {m n : Nat}
    (h : p.Holds block text n) (hmn : m ≤ n) : p.Holds block text m := by
  obtain ⟨hlen, tail, hdrop, htail⟩ := h
  exact ⟨hlen, tail, hdrop, Nat.le_trans hmn htail⟩

theorem Later.length_rest_le {buf' : StringBuf} (h : Later buf buf') (hbuf : Placed buf) :
    buf'.rest.length ≤ buf.rest.length := by
  have hforward := h.forward
  rw [h.placed.length_rest, hbuf.length_rest, h.len]
  omega

/-- All strings, each with what is left in the end behind it. -/
theorem getStrings_eq (k : Nat) (h : Placed buf) : ∃ out, getStrings k buf = some out ∧
    Later buf out.2 ∧ match sizedMany 4 k buf.rest with
      | none => out.1 = none
      | some (texts, rest) => out.2.rest = rest ∧ ∃ ptrs, out.1 = some ptrs ∧
          List.Forall₂ (fun p text => NamePtr.Holds buf.data p text rest.length) ptrs texts := by
  induction k generalizing buf with
  | zero => exact ⟨_, rfl, ⟨h, rfl, rfl, Nat.le_refl _⟩, rfl, [], rfl, .nil⟩
  | succ k ih =>
      obtain ⟨out, hout, hgot⟩ := got_string h
      rw [getStrings, hout, Option.bind_some, sizedMany]
      cases hgot with
      | failed hshort hlater =>
          rw [hshort]
          exact ⟨_, rfl, hlater, rfl⟩
      | @got off xs buf' htaken hlater hinside hthere =>
          obtain ⟨out, hmore, hlater', hmatch⟩ := ih hlater.placed
          simp only [hmore, htaken, Option.map_some, Option.bind_some]
          refine ⟨_, rfl, hlater.trans hlater', ?_⟩
          cases hmany : sizedMany 4 k buf'.rest with
          | none =>
              rw [hmany] at hmatch
              exact congrArg (Option.map _) hmatch
          | some q =>
              obtain ⟨texts, rest⟩ := q
              rw [hmany] at hmatch
              obtain ⟨hrest, ptrs, hptrs, hholds⟩ := hmatch
              refine ⟨hrest, _, congrArg (Option.map _) hptrs, .cons ⟨rfl, _, hthere, ?_⟩ ?_⟩
              · have hle := hlater'.length_rest_le hlater.placed
                rw [hrest] at hle
                rw [List.length_append]
                exact Nat.le_trans hle (Nat.le_add_right _ _)
              · rw [← hlater.data]
                exact hholds

end Strings

/-! ### All kinds of methods -/

section All
variable {tables : Tables} {session : Session} {block text hostText : List UInt8}
variable {p hostPtr : NamePtr}

theorem agree_any (h : p.Holds block text 1) {prefs : Option CText} {methods : List Method}
    (hsupported : Supported prefs methods) :
    agree (p.search block) prefs methods anyMethod =
      some (firstOffered prefs methods (text.splitOn comma)) := by
  have hsuits : ∀ (m : Method) (q : Nat),
      anyMethod m q = some (if (fun _ => true) m then some m else none) := fun _ _ => rfl
  rw [agree_eq h hsuits hsupported, outcome_any]
  simp only [Bool.and_true, firstOffered]

theorem kexAgreeHostkey_eq (h : hostPtr.Holds block hostText 1) (k : KexMethod)
    (hsupported : Supported session.hostkeyPrefs tables.hostkey) :
    kexAgreeHostkey tables session block k hostPtr =
      some (hostkeyFor tables session (hostText.splitOn comma) k) := by
  rw [kexAgreeHostkey, agree_eq h (fun _ _ => rfl) hsupported, outcome_any, hostkeyFor]

theorem kexAgreeKexHostkey_eq (h : p.Holds block text 1) (hhost : hostPtr.Holds block hostText 1)
    (hkex : Supported session.kexPrefs tables.kex)
    (hhostkey : Supported session.hostkeyPrefs tables.hostkey) :
    ∃ found, kexAgreeKexHostkey tables session block p hostPtr = some found ∧
      found.map (fun x => (x.1, x.2.1)) =
        firstKexHostkey tables session (text.splitOn comma) (hostText.splitOn comma) ∧
      ∀ x ∈ found, (p.off = x.2.2 ↔ (text.splitOn comma).head? = some (nameOf x.1)) := by
  have hsuits : ∀ (k : KexMethod) (q : Nat),
      ((kexAgreeHostkey tables session block k hostPtr).map fun found =>
        found.map fun m => (k, m, q)) =
      some ((hostkeyFor tables session (hostText.splitOn comma) k).map fun m => (k, m, q)) := by
    intro k q
    rw [kexAgreeHostkey_eq hhost k hhostkey]
    rfl
  refine ⟨_, agree_eq h hsuits hkex, ?_, ?_⟩
  · rw [outcome, List.map_findSome?, firstKexHostkey]
    congr 1
    funext k
    rw [Function.comp_apply, Option.map_bind]
    by_cases hmem : nameOf k ∈ text.splitOn comma
    · obtain ⟨q, hq⟩ := exists_firstAt p.off hmem
      rw [if_pos hmem, hq, Option.bind_some, Function.comp_apply, Option.map_map]
      rfl
    · rw [if_neg hmem, firstAt_eq_none p.off hmem]
      rfl
  · intro x hx
    obtain ⟨k, -, hk⟩ := List.exists_of_findSome?_eq_some hx
    obtain ⟨q, hq, hmap⟩ := Option.bind_eq_some_iff.mp hk
    obtain ⟨m, -, rfl⟩ := Option.map_eq_some_iff.mp hmap
    rw [← firstAt_eq_off, hq, Option.some.injEq]
    exact eq_comm

end All

/-! ### All kinds of methods -/

/-- A part ends in a certain session, or does not go on. Either way the preferences stay. -/
def Settles (p : Part) (s : Session) (result : Option Session) : Prop :=
  ∃ t, p s = some (result.isSome, t) ∧ t.prefs = s.prefs ∧ ∀ s' ∈ result, t = s'

/-- What is set leaves the preferences alone. -/
def KeepsPrefs {σ : Type} (set : Session → σ → Session) : Prop := ∀ s x, (set s x).prefs = s.prefs

section Parts
variable {σ : Type} {agreed : Session → Access (Option σ)}
  {set : Session → σ → Session} {s : Session} {found : Option σ}

theorem settles_part (h : agreed s = some found) (hset : KeepsPrefs set) :
    Settles (part agreed set) s (found.bind fun x => some (set s x)) := by
  rw [Settles, part, h]
  cases found with
  | none => exact ⟨s, rfl, rfl, fun s' hs' => by cases hs'⟩
  | some x => exact ⟨set s x, rfl, hset s x, fun s' hs' => Option.some.inj hs'⟩

theorem settles_andThen {second : Part} {result : σ → Option Session} (h : agreed s = some found)
    (hset : KeepsPrefs set) (hsecond : ∀ x, Settles second (set s x) (result x)) :
    Settles ((part agreed set).andThen second) s (found.bind result) := by
  rw [Settles, Part.andThen, part, h]
  cases found with
  | none => exact ⟨s, rfl, rfl, fun s' hs' => by cases hs'⟩
  | some x =>
      obtain ⟨t, hpart, hprefs, ht⟩ := hsecond x
      exact ⟨t, hpart, hprefs.trans (hset s x), ht⟩

theorem andThen_assoc (first second third : Part) :
    (first.andThen second).andThen third = first.andThen (second.andThen third) := by
  funext s
  simp only [Part.andThen]
  cases first s with
  | none => rfl
  | some r =>
      obtain ⟨ok, t⟩ := r
      cases ok <;> rfl

end Parts

/-- The byte does not count where the first key exchange of the server is the one agreed on. -/
def burnAfter (o : Offer) (a : Agreement) (burn : Bool) : Bool :=
  if o.kex.head? = some (nameOf a.kex) then false else burn

section All
variable {tables : Tables} {session : Session} {block : List UInt8}
  {kex hostkey cryptCs cryptSc macCs macSc compCs compSc : NamePtr}
  {kexText hostkeyText cryptCsText cryptScText macCsText macScText compCsText compScText : List UInt8}

theorem parts_settle (hvalid : session.Valid tables)
    (hkex : kex.Holds block kexText 1) (hhostkey : hostkey.Holds block hostkeyText 1)
    (hcryptCs : cryptCs.Holds block cryptCsText 1) (hcryptSc : cryptSc.Holds block cryptScText 1)
    (hmacCs : macCs.Holds block macCsText 1) (hmacSc : macSc.Holds block macScText 1)
    (hcompCs : compCs.Holds block compCsText 1) (hcompSc : compSc.Holds block compScText 1) :
    let o : Offer := ⟨kexText.splitOn comma, hostkeyText.splitOn comma,
      cryptCsText.splitOn comma, cryptScText.splitOn comma, macCsText.splitOn comma,
      macScText.splitOn comma, compCsText.splitOn comma, compScText.splitOn comma⟩
    Settles ((kexPart tables block kex hostkey).andThen
        ((cryptParts tables block cryptCs cryptSc).andThen
          ((macParts tables block macCs macSc).andThen (compParts tables block compCs compSc))))
      session ((negotiate tables session o).map fun a =>
        session.agreedOn a (burnAfter o a session.burnOptimisticKexinit)) := by
  intro o
  obtain ⟨found, hfound, hkeys, hguess⟩ :=
    kexAgreeKexHostkey_eq hkex hhostkey hvalid.kex hvalid.hostkey
  have hresult : ((negotiate tables session o).map fun a =>
      session.agreedOn a (burnAfter o a session.burnOptimisticKexinit)) =
      found.bind fun x =>
        (firstOffered session.localData.cryptPrefs tables.crypt o.cryptCs).bind fun cryptCs =>
        (firstOffered session.remoteData.cryptPrefs tables.crypt o.cryptSc).bind fun cryptSc =>
        (firstOffered session.localData.macPrefs tables.mac o.macCs).bind fun macCs =>
        (firstOffered session.remoteData.macPrefs tables.mac o.macSc).bind fun macSc =>
        (firstOffered session.localData.compPrefs tables.comp o.compCs).bind fun compCs =>
        (firstOffered session.remoteData.compPrefs tables.comp o.compSc).bind fun compSc =>
        some (session.agreedOn ⟨x.1, x.2.1, cryptCs, cryptSc, macCs, macSc, compCs, compSc⟩
          (if session.burnOptimisticKexinit ∧ kex.off = x.2.2 then false
            else session.burnOptimisticKexinit)) := by
    rw [negotiate, ← hkeys]
    cases found with
    | none => rfl
    | some x =>
        have hburn : ∀ a : Agreement, a.kex = x.1 → burnAfter o a session.burnOptimisticKexinit =
            if session.burnOptimisticKexinit ∧ kex.off = x.2.2 then false
            else session.burnOptimisticKexinit := by
          intro a ha
          rw [burnAfter, ha]
          by_cases hfirst : o.kex.head? = some (nameOf x.1)
          · have hoff : kex.off = x.2.2 := (hguess x rfl).mpr hfirst
            rw [if_pos hfirst]
            cases session.burnOptimisticKexinit with
            | true => simp [hoff]
            | false => simp
          · have hoff : kex.off ≠ x.2.2 := fun heq => hfirst ((hguess x rfl).mp heq)
            rw [if_neg hfirst, if_neg fun h => hoff h.2]
        simp only [Option.map_eq_bind, Function.comp_def, Option.bind_assoc, Option.bind_some,
          hburn]
  rw [hresult, cryptParts, macParts, compParts, andThen_assoc, andThen_assoc]
  refine settles_andThen hfound (fun _ _ => rfl) fun x => ?_
  refine settles_andThen (agree_any hcryptCs hvalid.cryptCs) (fun _ _ => rfl) fun cryptCs => ?_
  refine settles_andThen (agree_any hcryptSc hvalid.cryptSc) (fun _ _ => rfl) fun cryptSc => ?_
  refine settles_andThen (agree_any hmacCs hvalid.macCs) (fun _ _ => rfl) fun macCs => ?_
  refine settles_andThen (agree_any hmacSc hvalid.macSc) (fun _ _ => rfl) fun macSc => ?_
  refine settles_andThen (agree_any hcompCs hvalid.compCs) (fun _ _ => rfl) fun compCs => ?_
  exact settles_part (agree_any hcompSc hvalid.compSc) fun _ _ => rfl

theorem placed_packet {data : List UInt8} (hlen : ¬data.length < 17)
    (hsmall : data.length < 2 ^ 32) : Placed ⟨data, 17, data.length⟩ :=
  ⟨Nat.le_of_not_lt hlen, Nat.le_refl _, hsmall⟩

theorem rest_packet (data : List UInt8) :
    StringBuf.rest ⟨data, 17, data.length⟩ = data.drop 17 := by
  rw [StringBuf.rest, List.take_length]

theorem cons_of_holds {block : List UInt8} {n k : Nat} {ptrs : List NamePtr}
    {texts : List (List UInt8)}
    (h : List.Forall₂ (fun p text => NamePtr.Holds block p text n) ptrs texts)
    (hlen : texts.length = k + 1) :
    ∃ p text ptrs' texts', ptrs = p :: ptrs' ∧ texts = text :: texts' ∧
      NamePtr.Holds block p text n ∧
      List.Forall₂ (fun p text => NamePtr.Holds block p text n) ptrs' texts' ∧
      texts'.length = k := by
  cases h with
  | nil => cases hlen
  | cons hp hrest => exact ⟨_, _, _, _, rfl, rfl, hp, hrest, Nat.succ.inj hlen⟩

/-- What the packet says, and nothing else, decides about the session. -/
theorem kexAgreeMethods_eq (hvalid : session.Valid tables) {data : List UInt8}
    (hsmall : data.length < 2 ^ 32) :
    ∃ after, kexAgreeMethods tables session data =
        some (((serverOffer data).bind fun p => negotiate tables session p.1).isSome, after) ∧
      after.prefs = session.prefs ∧
      ∀ p ∈ serverOffer data, ∀ a ∈ negotiate tables session p.1,
        after = session.agreedOn a (burnAfter p.1 a p.2) := by
  by_cases hlen : data.length < 17
  · have hdrop : data.drop 17 = [] := List.drop_eq_nil_of_le (Nat.le_of_lt hlen)
    have hoffer : serverOffer data = none := by rw [serverOffer, hdrop]; rfl
    rw [hoffer, kexAgreeMethods, if_pos hlen]
    exact ⟨session, rfl, rfl, fun p hp => by cases hp⟩
  · obtain ⟨⟨got, buf⟩, hout, hlater, hmatch⟩ := getStrings_eq 8 (placed_packet hlen hsmall)
    rw [rest_packet] at hmatch
    rw [kexAgreeMethods, if_neg hlen, hout, Option.bind_some]
    cases hmany : sizedMany 4 8 (data.drop 17) with
    | none =>
        rw [hmany] at hmatch
        have hoffer : serverOffer data = none := by rw [serverOffer, hmany]; rfl
        obtain rfl : got = none := hmatch
        rw [hoffer]
        exact ⟨session, rfl, rfl, fun p hp => by cases hp⟩
    | some q =>
        obtain ⟨texts, rest⟩ := q
        rw [hmany] at hmatch
        obtain ⟨hrest, ptrs, hptrs, hholds⟩ := hmatch
        obtain rfl : got = some ptrs := hptrs
        have hplaced := hlater.placed
        have hcheck := hplaced.checkLength_eq 1
        rw [hrest] at hcheck
        have hlen8 := (eq_of_sizedMany hmany).2
        obtain ⟨kex, kexText, _, _, rfl, rfl, hkex, hholds, hlen8⟩ := cons_of_holds hholds hlen8
        obtain ⟨host, hostText, _, _, rfl, rfl, hhost, hholds, hlen8⟩ := cons_of_holds hholds hlen8
        obtain ⟨p3, text3, _, _, rfl, rfl, h3, hholds, hlen8⟩ := cons_of_holds hholds hlen8
        obtain ⟨p4, text4, _, _, rfl, rfl, h4, hholds, hlen8⟩ := cons_of_holds hholds hlen8
        obtain ⟨p5, text5, _, _, rfl, rfl, h5, hholds, hlen8⟩ := cons_of_holds hholds hlen8
        obtain ⟨p6, text6, _, _, rfl, rfl, h6, hholds, hlen8⟩ := cons_of_holds hholds hlen8
        obtain ⟨p7, text7, _, _, rfl, rfl, h7, hholds, hlen8⟩ := cons_of_holds hholds hlen8
        obtain ⟨p8, text8, _, _, rfl, rfl, h8, hholds, hlen8⟩ := cons_of_holds hholds hlen8
        obtain rfl := List.length_eq_zero_iff.mp hlen8
        cases hholds
        cases rest with
        | nil =>
            have hoffer : serverOffer data = none := by rw [serverOffer, hmany]; rfl
            simp only [hcheck, hoffer]
            exact ⟨session, rfl, rfl, fun p hp => by cases hp⟩
        | cons burn rest =>
            have hone : 1 ≤ (burn :: rest).length := Nat.succ_pos _
            have hburn : load buf.data buf.dataptr = some burn := by
              have hdrop := hplaced.drop_data
              rw [hrest] at hdrop
              exact load_of_drop hdrop
            have hvalid' : Session.Valid tables
                { session with burnOptimisticKexinit := lowBit burn } :=
              ⟨hvalid.kex, hvalid.hostkey, hvalid.cryptCs, hvalid.cryptSc, hvalid.macCs,
                hvalid.macSc, hvalid.compCs, hvalid.compSc⟩
            obtain ⟨after, hparts, hprefs, hafter⟩ :=
              parts_settle hvalid' (hkex.mono hone) (hhost.mono hone)
              (h3.mono hone) (h4.mono hone) (h5.mono hone) (h6.mono hone) (h7.mono hone)
              (h8.mono hone)
            have hoffer : serverOffer data = some (⟨kexText.splitOn comma, hostText.splitOn comma,
                text3.splitOn comma, text4.splitOn comma, text5.splitOn comma,
                text6.splitOn comma, text7.splitOn comma, text8.splitOn comma⟩, lowBit burn) := by
              rw [serverOffer, hmany]
              rfl
            simp only [hcheck, hone, decide_true, if_true, hburn, Option.bind_some, hoffer]
            refine ⟨after, ?_, hprefs, ?_⟩
            · rw [hparts, Option.isSome_map]
              rfl
            · intro p hp a ha
              obtain rfl := Option.some.inj hp
              exact hafter _ (congrArg (Option.map _) ha)

/-- Valid preferences stay so. -/
theorem Session.Valid.of_prefs {after : Session} (hvalid : session.Valid tables)
    (h : after.prefs = session.prefs) : after.Valid tables := by
  simp only [Session.prefs, List.cons.injEq] at h
  obtain ⟨hkex, hhostkey, hcryptCs, hcryptSc, hmacCs, hmacSc, hcompCs, hcompSc, -⟩ := h
  exact ⟨hkex ▸ hvalid.kex, hhostkey ▸ hvalid.hostkey, hcryptCs ▸ hvalid.cryptCs,
    hcryptSc ▸ hvalid.cryptSc, hmacCs ▸ hvalid.macCs, hmacSc ▸ hvalid.macSc,
    hcompCs ▸ hvalid.compCs, hcompSc ▸ hvalid.compSc⟩

/-- Over every packet of a server: the library stays within the packet, it agrees on methods exactly
if the offer in it allows it, and then on the first ones of its own order that are offered. The
preferences stay as they are, and valid, for the next exchange of keys. -/
theorem kex_agree_methods_negotiates (hvalid : session.Valid tables) {data : List UInt8}
    (hsmall : data.length < 2 ^ 32) :
    ∃ after, kexAgreeMethods tables session data =
        some (((serverOffer data).bind fun p => negotiate tables session p.1).isSome, after) ∧
      (∀ p ∈ serverOffer data, ∀ a ∈ negotiate tables session p.1,
        after = session.agreedOn a (burnAfter p.1 a p.2)) ∧
      after.prefs = session.prefs ∧ after.Valid tables := by
  obtain ⟨after, hagree, hprefs, hafter⟩ := kexAgreeMethods_eq hvalid hsmall
  exact ⟨after, hagree, hafter, hprefs, hvalid.of_prefs hprefs⟩

end All

def letterA : MethodName := ⟨[97], by decide, by decide, by decide⟩
def letterB : MethodName := ⟨[98], by decide, by decide, by decide⟩

/-- Two ciphers, and one method of each other kind. -/
def twoCiphers : Tables where
  kex := [⟨letterA, false, true⟩]
  hostkey := [⟨letterA, false, true⟩]
  crypt := [⟨letterA⟩, ⟨letterB⟩]
  mac := [⟨letterA⟩]
  comp := [⟨letterA⟩]

def freshEndpoint : Endpoint := ⟨none, none, none, none, none, none, none⟩

def freshSession : Session :=
  ⟨none, none, none, freshEndpoint, freshEndpoint, none, none, false⟩

/-- The server prefers the second cipher in both directions, and has no other one in the second. -/
def secondCipherPacket : List UInt8 :=
  List.replicate 17 20 ++ [[97], [97], [98, 44, 97], [98], [97], [97], [97], [97], [], []].flatMap
    (putSized 4) ++ [1, 0, 0, 0, 0]

theorem valid_fresh (tables : Tables) : freshSession.Valid tables := by
  constructor <;> exact fun text htext => by cases htext

theorem kex_agree_methods_negotiates_ciphers :
    ∃ after, kexAgreeMethods twoCiphers freshSession secondCipherPacket = some (true, after) ∧
      after.localData.crypt = some ⟨letterA⟩ ∧ after.remoteData.crypt = some ⟨letterB⟩ ∧
      after.burnOptimisticKexinit = false := by
  have hsmall : secondCipherPacket.length < 2 ^ 32 := by decide
  obtain ⟨after, hagree, hafter, -⟩ := kex_agree_methods_negotiates (valid_fresh twoCiphers) hsmall
  have hoffer : serverOffer secondCipherPacket =
      some (⟨[[97]], [[97]], [[98], [97]], [[98]], [[97]], [[97]], [[97]], [[97]]⟩, false) := rfl
  have hafter' := hafter _ hoffer _ rfl
  exact ⟨after, hagree, by rw [hafter']; rfl, by rw [hafter']; rfl, by rw [hafter']; rfl⟩

end InfoGlobe.Ssh
