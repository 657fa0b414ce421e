import InfoGlobe.Ssh.Negotiation

/-!
The message that opens the negotiation. Its length is counted before it is allocated; each list of
a table is written with a comma behind every name, the last one included, and the next field goes
over that comma.
-/

namespace InfoGlobe.Ssh
open CheckedBlock StringCompare WireFormat ListParts

section Lists
variable {μ : Type} [Named μ]

def kexMethodStrlen : List μ → Nat
  | [] => 0
  | method :: methods =>
      (method :: methods).foldl (fun len m => len + ((nameOf m).length + 1)) 0 - 1

/-- `LIBSSH2_METHOD_PREFS_LEN`. -/
def methodPrefsLen (prefs : Option CText) (methods : List μ) : Nat :=
  match prefs with
  | some text => text.chars.length
  | none => kexMethodStrlen methods

/-- The loop over the table, a comma behind every name. -/
def putNames : List μ → Out → Access Out
  | [], buf => some buf
  | method :: methods, buf =>
      (buf.put (nameOf method)).bind fun buf => (buf.put [comma]).bind (putNames methods)

/-- The pointer goes on by the length of the list, which leaves out the last comma. -/
def kexMethodList (buf : Out) (listStrlen : Nat) (methods : List μ) : Access Out :=
  (buf.put (htonu32 (UInt32.ofNat listStrlen))).bind fun s =>
    match methods with
    | [] => some { s with buf := buf.buf + 4 }
    | method :: methods =>
        (putNames (method :: methods) s).map fun s =>
          { s with buf := buf.buf + (listStrlen + 4) }

/-- `LIBSSH2_METHOD_PREFS_STR`. -/
def methodPrefsStr (prefs : Option CText) (methods : List μ) (buf : Out) : Access Out :=
  match prefs with
  | some text =>
      (buf.put (htonu32 (UInt32.ofNat text.chars.length))).bind fun buf => buf.put text.chars
  | none => kexMethodList buf (kexMethodStrlen methods) methods

end Lists

/-- No languages are in a table. -/
def noLanguages : List Method := []

/-- The length of the message, `data_len`. -/
def kexinitLen (tables : Tables) (session : Session) : Nat :=
  62 + (methodPrefsLen session.kexPrefs tables.kex +
    methodPrefsLen session.hostkeyPrefs tables.hostkey +
    methodPrefsLen session.localData.cryptPrefs tables.crypt +
    methodPrefsLen session.remoteData.cryptPrefs tables.crypt +
    methodPrefsLen session.localData.compPrefs tables.comp +
    methodPrefsLen session.remoteData.compPrefs tables.comp +
    methodPrefsLen session.localData.macPrefs tables.mac +
    methodPrefsLen session.remoteData.macPrefs tables.mac +
    methodPrefsLen session.localData.langPrefs noLanguages +
    methodPrefsLen session.remoteData.langPrefs noLanguages)

/-- The fields of the message one after another, `cookie` being its random bytes. -/
def putKexinit (tables : Tables) (session : Session) (cookie : List UInt8) (s : Out) :
    Access Out := do
  let s ← s.put [20]
  let s ← s.put cookie
  let s ← methodPrefsStr session.kexPrefs tables.kex s
  let s ← methodPrefsStr session.hostkeyPrefs tables.hostkey s
  let s ← methodPrefsStr session.localData.cryptPrefs tables.crypt s
  let s ← methodPrefsStr session.remoteData.cryptPrefs tables.crypt s
  let s ← methodPrefsStr session.localData.macPrefs tables.mac s
  let s ← methodPrefsStr session.remoteData.macPrefs tables.mac s
  let s ← methodPrefsStr session.localData.compPrefs tables.comp s
  let s ← methodPrefsStr session.remoteData.compPrefs tables.comp s
  let s ← methodPrefsStr session.localData.langPrefs noLanguages s
  let s ← methodPrefsStr session.remoteData.langPrefs noLanguages s
  let s ← s.put [0]
  s.put (htonu32 0)

/-- The message in the block that has been allocated for it. -/
def kexinit (tables : Tables) (session : Session) (cookie data : List UInt8) :
    Access (List UInt8) :=
  (putKexinit tables session cookie ⟨data, 0⟩).map Out.block

/-! ### The message as it should be -/

/-- A message of either side: its lists as texts, and its flag for a guess that follows. -/
structure Hello where
  cookie : List UInt8
  lists : List (List UInt8)
  follows : UInt8

def Hello.wire (m : Hello) : List UInt8 :=
  [20] ++ (m.cookie ++ (m.lists.flatMap (putSized 4) ++ ([m.follows] ++ bigEndian 4 0)))

section Texts
variable {μ : Type} [Named μ]

/-- The list of the client as a text. -/
def listText (prefs : Option CText) (methods : List μ) : List UInt8 :=
  match prefs with
  | some text => text.chars
  | none => [comma].intercalate (methods.map nameOf)

end Texts

/-- What the client has to say. -/
def clientHello (tables : Tables) (session : Session) (cookie : List UInt8) : Hello where
  cookie := cookie
  lists := [listText session.kexPrefs tables.kex, listText session.hostkeyPrefs tables.hostkey,
    listText session.localData.cryptPrefs tables.crypt,
    listText session.remoteData.cryptPrefs tables.crypt,
    listText session.localData.macPrefs tables.mac, listText session.remoteData.macPrefs tables.mac,
    listText session.localData.compPrefs tables.comp,
    listText session.remoteData.compPrefs tables.comp,
    listText session.localData.langPrefs noLanguages,
    listText session.remoteData.langPrefs noLanguages]
  follows := 0

/-! ### Stores that go too far -/

/-- A store function fills a place; it may change up to `spill` bytes behind it, which are there. -/
def Fills (stores : Out → Access Out) (bytes : List UInt8) (spill : Nat) : Prop :=
  ∀ front old back : List UInt8, bytes.length = old.length → spill ≤ back.length →
    ∃ back' : List UInt8, back'.length = back.length ∧
      stores ⟨front ++ old ++ back, front.length⟩ =
        some ⟨front ++ bytes ++ back', (front ++ bytes).length⟩

section Filling

theorem Writes.fills {stores : Out → Access Out} {bytes : List UInt8} (h : Writes stores bytes)
    (spill : Nat) : Fills stores bytes spill := by
  intro front old back hlen _
  exact ⟨back, rfl, h front old back hlen⟩

/-- The second store goes over what the first one has spilled. -/
theorem Fills.bind {first second : Out → Access Out} {xs ys : List UInt8} {m n : Nat}
    (h : Fills first xs m) (h' : Fills second ys n) (hm : m ≤ ys.length + n) :
    Fills (fun out => (first out).bind second) (xs ++ ys) n := by
  intro front old back hlen hback
  rw [List.length_append] at hlen
  have hxs : xs.length = (old.take xs.length).length := by
    rw [List.length_take]
    omega
  have hold : front ++ old ++ back =
      front ++ old.take xs.length ++ (old.drop xs.length ++ back) := by
    rw [List.append_assoc, List.append_assoc, ← List.append_assoc (old.take _),
      List.take_append_drop]
  have hdrop : (old.drop xs.length ++ back).length = ys.length + back.length := by
    rw [List.length_append, List.length_drop]
    omega
  obtain ⟨mid, hmid, hfirst⟩ := h front (old.take xs.length) (old.drop xs.length ++ back) hxs
    (by rw [hdrop]; omega)
  rw [hdrop] at hmid
  have hys : ys.length = (mid.take ys.length).length := by
    rw [List.length_take]
    omega
  have hrest : (mid.drop ys.length).length = back.length := by
    rw [List.length_drop]
    omega
  obtain ⟨back', hback', hsecond⟩ := h' (front ++ xs) _ _ hys (hrest ▸ hback)
  rw [List.append_assoc (front ++ xs), List.take_append_drop] at hsecond
  refine ⟨back', hback'.trans hrest, ?_⟩
  show (first ⟨front ++ old ++ back, front.length⟩).bind second = _
  rw [hold, hfirst, Option.bind_some, hsecond, List.append_assoc front]

variable {μ : Type} [Named μ]

theorem writes_names (methods : List μ) :
    Writes (putNames methods) (methods.flatMap fun m => nameOf m ++ [comma]) := by
  induction methods with
  | nil => exact writes_nothing
  | cons m methods ih =>
      have h := (writes_put (nameOf m)).bind ((writes_put [comma]).bind ih)
      rw [List.flatMap_cons, List.append_assoc]
      exact h

/-- The names with a comma behind each are the list and one comma more. -/
theorem names_eq (m : μ) (methods : List μ) :
    ((m :: methods).flatMap fun m => nameOf m ++ [comma]) =
      [comma].intercalate ((m :: methods).map nameOf) ++ [comma] := by
  induction methods generalizing m with
  | nil => simp
  | cons next methods ih =>
      rw [List.flatMap_cons, ih, List.map_cons, List.map_cons, List.map_cons,
        List.intercalate_cons_cons]
      simp

theorem kexMethodStrlen_eq (methods : List μ) :
    kexMethodStrlen methods = ([comma].intercalate (methods.map nameOf)).length := by
  cases methods with
  | nil => rfl
  | cons m methods =>
      have hsum : ∀ (k : Nat) (l : List μ),
          l.foldl (fun len m => len + ((nameOf m).length + 1)) k =
            k + (l.flatMap fun m => nameOf m ++ [comma]).length := by
        intro k l
        induction l generalizing k with
        | nil => rfl
        | cons m l ih =>
            rw [List.foldl_cons, ih, List.flatMap_cons, List.length_append, List.length_append,
              List.length_singleton, Nat.add_assoc]
      rw [kexMethodStrlen, hsum, names_eq, List.length_append, List.length_singleton]
      omega

theorem methodPrefsLen_eq (prefs : Option CText) (methods : List μ) :
    methodPrefsLen prefs methods = (listText prefs methods).length := by
  cases prefs with
  | none => exact kexMethodStrlen_eq methods
  | some text => rfl

theorem fills_methodList (methods : List μ)
    (hsmall : ([comma].intercalate (methods.map nameOf)).length < 2 ^ 32) :
    Fills (fun buf => kexMethodList buf (kexMethodStrlen methods) methods)
      (putSized 4 ([comma].intercalate (methods.map nameOf))) 1 := by
  have hlen := kexMethodStrlen_eq methods
  cases methods with
  | nil =>
      intro front old back hold _
      have hwrites : Out.put ⟨front ++ old ++ back, front.length⟩ (htonu32 (UInt32.ofNat 0)) =
          some ⟨front ++ bigEndian 4 0 ++ back, (front ++ bigEndian 4 0).length⟩ :=
        writes_u32 (by decide : 0 < 2 ^ 32) front old back hold
      have hempty : putSized 4 ([comma].intercalate (([] : List μ).map nameOf)) =
          bigEndian 4 0 := rfl
      refine ⟨back, rfl, ?_⟩
      show kexMethodList _ (kexMethodStrlen []) [] = _
      rw [kexMethodList, kexMethodStrlen, hwrites, hempty, List.length_append]
      rfl
  | cons m methods =>
      intro front old back hold hback
      obtain ⟨c, back, rfl⟩ := List.exists_cons_of_length_pos hback
      have hplace : (bigEndian 4 (kexMethodStrlen (m :: methods)) ++
          (m :: methods).flatMap fun m => nameOf m ++ [comma]).length = (old ++ [c]).length := by
        rw [putSized, ← hlen, List.length_append] at hold
        rw [names_eq, List.length_append, List.length_append, List.length_append, ← hold,
          Nat.add_assoc]
        rfl
      rw [← hlen] at hsmall
      have hwrites := ((writes_u32 hsmall).bind (writes_names (m :: methods))) front (old ++ [c])
        back hplace
      beta_reduce at hwrites
      have hmap : kexMethodList ⟨front ++ old ++ c :: back, front.length⟩
          (kexMethodStrlen (m :: methods)) (m :: methods) =
          ((storeU32 ⟨front ++ (old ++ [c]) ++ back, front.length⟩
            (UInt32.ofNat (kexMethodStrlen (m :: methods)))).bind (putNames (m :: methods))).map
            fun s => ⟨s.block, front.length + (kexMethodStrlen (m :: methods) + 4)⟩ := by
        rw [kexMethodList, Option.map_bind]
        simp only [List.append_assoc, List.singleton_append, storeU32]
        rfl
      refine ⟨comma :: back, rfl, ?_⟩
      show kexMethodList _ _ _ = _
      rw [hmap, hwrites, Option.map_some, names_eq, putSized, ← hlen]
      congr 2
      · simp only [List.append_assoc, List.singleton_append]
      · simp only [List.length_append, length_bigEndian, hlen]
        omega

theorem fills_prefsStr (prefs : Option CText) (methods : List μ)
    (hsmall : (listText prefs methods).length < 2 ^ 32) :
    Fills (methodPrefsStr prefs methods) (putSized 4 (listText prefs methods)) 1 := by
  cases prefs with
  | none => exact fills_methodList methods hsmall
  | some text =>
      exact ((writes_u32 hsmall).bind (writes_put text.chars)).fills 1

end Filling

/-! ### The message as it is -/

section Message
variable {tables : Tables} {session : Session} {cookie data : List UInt8}

theorem length_wire (m : Hello) : m.wire.length =
    m.cookie.length + (m.lists.flatMap (putSized 4)).length + 6 := by
  simp only [Hello.wire, List.length_append, List.length_singleton, length_bigEndian]
  omega

theorem kexinitLen_eq (hcookie : cookie.length = 16) :
    kexinitLen tables session = (clientHello tables session cookie).wire.length := by
  simp only [length_wire, clientHello, List.flatMap_cons, List.flatMap_nil, List.length_append,
    putSized, length_bigEndian, kexinitLen, methodPrefsLen_eq, hcookie, List.length_nil]
  omega

/-- The message is written into its block without leaving it, whatever was there. -/
theorem kexinit_eq (hcookie : cookie.length = 16) (hdata : data.length = kexinitLen tables session)
    (hsmall : kexinitLen tables session < 2 ^ 32) :
    kexinit tables session cookie data = some (clientHello tables session cookie).wire := by
  have hlens := hsmall
  simp only [kexinitLen, methodPrefsLen_eq] at hlens
  have hend : Fills (fun s => (s.put [0]).bind fun s => s.put (htonu32 0))
      ([0] ++ bigEndian 4 0) 0 :=
    ((writes_put [0]).bind (writes_u32 (by decide : 0 < 2 ^ 32))).fills 0
  have hlangSc := (fills_prefsStr session.remoteData.langPrefs noLanguages (by omega)).bind hend
    (by decide)
  have hover : ∀ text rest : List UInt8, 1 ≤ (putSized 4 text ++ rest).length + 0 := by
    intro text rest
    rw [List.length_append, putSized, List.length_append, length_bigEndian]
    omega
  have hlangCs := (fills_prefsStr session.localData.langPrefs noLanguages (by omega)).bind hlangSc
    (hover _ _)
  have hcompSc := (fills_prefsStr session.remoteData.compPrefs tables.comp (by omega)).bind hlangCs
    (hover _ _)
  have hcompCs := (fills_prefsStr session.localData.compPrefs tables.comp (by omega)).bind hcompSc
    (hover _ _)
  have hmacSc := (fills_prefsStr session.remoteData.macPrefs tables.mac (by omega)).bind hcompCs
    (hover _ _)
  have hmacCs := (fills_prefsStr session.localData.macPrefs tables.mac (by omega)).bind hmacSc
    (hover _ _)
  have hcryptSc := (fills_prefsStr session.remoteData.cryptPrefs tables.crypt (by omega)).bind
    hmacCs (hover _ _)
  have hcryptCs := (fills_prefsStr session.localData.cryptPrefs tables.crypt (by omega)).bind
    hcryptSc (hover _ _)
  have hhostkey := (fills_prefsStr session.hostkeyPrefs tables.hostkey (by omega)).bind hcryptCs
    (hover _ _)
  have hkex := (fills_prefsStr session.kexPrefs tables.kex (by omega)).bind hhostkey (hover _ _)
  have hall := ((writes_put [20]).fills 0).bind (((writes_put cookie).fills 0).bind hkex
    (Nat.zero_le _)) (Nat.zero_le _)
  have hwire : (clientHello tables session cookie).wire.length = data.length := by
    rw [hdata, kexinitLen_eq hcookie]
  have hfills : Fills (putKexinit tables session cookie)
      (clientHello tables session cookie).wire 0 := by
    simp only [Hello.wire, clientHello, List.flatMap_cons, List.flatMap_nil, List.append_assoc,
      List.nil_append]
    exact hall
  obtain ⟨back, hback, hput⟩ := hfills [] data [] hwire (Nat.zero_le _)
  obtain rfl := List.length_eq_zero_iff.mp hback
  rw [List.nil_append, List.append_nil, List.nil_append, List.append_nil] at hput
  exact congrArg (Option.map Out.block) hput

end Message

end InfoGlobe.Ssh
