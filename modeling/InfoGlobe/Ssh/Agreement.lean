import InfoGlobe.Library.StepSystem
import InfoGlobe.Ssh.KexInit
import InfoGlobe.Ssh.MethodPref
import Mathlib.Data.List.Find

/-!
The two ends of a negotiation. The server reads the message of the client and takes, for each kind,
the first name of the client that it has itself; the library does the same with the message of the
server. Both come to the same methods, whatever a caller has asked for before.
-/

namespace InfoGlobe.Ssh
open CheckedBlock StringCompare WireFormat ListParts StepSystem

/-! ### The calls of a session -/

/-- A caller sets preferences, or keys are exchanged; the packet of the server may not come. -/
inductive Call where
  | prefer (methodType : MethodType) (prefs : CText) (allocated : Bool)
  | exchange (reexchange : Bool) (packet : Option (List UInt8))

/-- The next keys are negotiated for anew. -/
def Session.begin (session : Session) (reexchange : Bool) : Session :=
  if reexchange then { session with kex := none, hostkey := none } else session

/-- What an exchange of keys does to the methods, and whether it goes on. -/
def Session.exchange (tables : Tables) (session : Session) (packet : Option (List UInt8)) :
    Access (Bool × Session) :=
  if session.kex.isNone || session.hostkey.isNone then
    match packet with
    | some data => kexAgreeMethods tables session data
    | none => some (false, session)
  else some (true, session)

/-- A call that fails leaves the preferences as they are. -/
def Session.step (memcpy : Memcpy) (tables : Tables) (session : Session) : Call → Access Session
  | .prefer methodType prefs allocated =>
      (methodPref memcpy tables session methodType prefs allocated).map fun
        | .ok after => after
        | .error _ => session
  | .exchange reexchange packet =>
      ((session.begin reexchange).exchange tables packet).map Prod.snd

/-- A packet has a length that a `size_t` can hold. -/
def Call.Sized : Call → Prop
  | .prefer _ _ _ => True
  | .exchange _ packet => ∀ data ∈ packet, data.length < 2 ^ 32

section Calls
variable {memcpy : Memcpy} {tables : Tables} {session : Session}

theorem supported_of_common {μ : Type} [Named μ] {prefs : Option CText} {methods : List μ}
    (h : Supported prefs (common methods)) : Supported prefs methods := by
  intro text htext s hs hne
  have hfound := h text htext s hs hne
  rw [kexGetMethodByName, common, List.find?_map, Option.isSome_map] at hfound
  exact hfound

theorem setPref_valid {methodType : MethodType} {text : CText} (hvalid : session.Valid tables)
    (h : ∀ methods ∈ tables.mlist methodType, Supported (some text) methods) :
    (session.setPref text methodType).Valid tables := by
  cases methodType with
  | kex => exact { hvalid with kex := supported_of_common (h _ rfl) }
  | hostkey => exact { hvalid with hostkey := supported_of_common (h _ rfl) }
  | cryptCs => exact { hvalid with cryptCs := supported_of_common (h _ rfl) }
  | cryptSc => exact { hvalid with cryptSc := supported_of_common (h _ rfl) }
  | macCs => exact { hvalid with macCs := supported_of_common (h _ rfl) }
  | macSc => exact { hvalid with macSc := supported_of_common (h _ rfl) }
  | compCs => exact { hvalid with compCs := supported_of_common (h _ rfl) }
  | compSc => exact { hvalid with compSc := supported_of_common (h _ rfl) }
  | langCs | langSc | signAlgo | other => exact { hvalid with }

theorem methodPref_valid (hcopy : CopiesDown memcpy) (hvalid : session.Valid tables)
    (methodType : MethodType) (prefs : CText) (allocated : Bool) :
    ∃ r, methodPref memcpy tables session methodType prefs allocated = some r ∧
      ∀ after, r = .ok after → after.Valid tables := by
  by_cases hkind : methodType = .other
  · rw [methodPref, if_pos hkind]
    exact ⟨_, rfl, fun after h => by cases h⟩
  rw [methodPref, if_neg hkind]
  cases allocated with
  | false => exact ⟨_, rfl, fun after h => by cases h⟩
  | true =>
      cases hlist : tables.mlist methodType with
      | some methods =>
          obtain ⟨r, hr, hcase⟩ := newPrefs_requested hcopy methods prefs
          rw [hr]
          refine ⟨_, rfl, fun after h => ?_⟩
          cases r with
          | error e => cases h
          | ok text =>
              obtain rfl := Except.ok.inj h
              refine setPref_valid hvalid fun ms hms => ?_
              obtain rfl := Option.some.inj (hlist.symm.trans hms)
              exact hcase.1
      | none =>
          obtain ⟨r, hr, -⟩ := newPrefs_unlisted memcpy prefs
          rw [hr]
          refine ⟨_, rfl, fun after h => ?_⟩
          cases r with
          | error e => cases h
          | ok text =>
              obtain rfl := Except.ok.inj h
              refine setPref_valid hvalid fun ms hms => ?_
              exact absurd (hlist.symm.trans hms) (by simp)

/-- Every call ends, within its blocks, and in a session that can be negotiated for. -/
theorem step_valid (hcopy : CopiesDown memcpy) (hvalid : session.Valid tables) {call : Call}
    (hsized : call.Sized) :
    ∃ after, session.step memcpy tables call = some after ∧ after.Valid tables := by
  cases call with
  | prefer methodType prefs allocated =>
      obtain ⟨r, hr, hafter⟩ := methodPref_valid hcopy hvalid methodType prefs allocated
      rw [Session.step, hr]
      cases r with
      | ok after => exact ⟨after, rfl, hafter after rfl⟩
      | error e => exact ⟨session, rfl, hvalid⟩
  | exchange reexchange packet =>
      have hvalid' : (session.begin reexchange).Valid tables := by
        refine hvalid.of_prefs ?_
        cases reexchange <;> rfl
      rw [Session.step]
      unfold Session.exchange
      split
      · cases packet with
        | none => exact ⟨_, rfl, hvalid'⟩
        | some data =>
            obtain ⟨after, hagree, hafter, -⟩ := kexAgreeMethods_eq hvalid' (hsized data rfl)
            refine ⟨after, ?_, hvalid'.of_prefs hafter⟩
            simp only [hagree, Option.map_some]
      · exact ⟨_, rfl, hvalid'⟩

theorem run_valid (hcopy : CopiesDown memcpy) (hvalid : session.Valid tables) {calls : List Call}
    (hsized : ∀ call ∈ calls, call.Sized) :
    ∃ after, run (Session.step memcpy tables) session calls = some after ∧ after.Valid tables := by
  have progress : ∀ (s : Session) (call : Call), s.Valid tables → call.Sized →
      ∃ t, Session.step memcpy tables s call = some t ∧ t.Valid tables :=
    fun _ _ hs hcall => step_valid hcopy hs hcall
  exact exists_run progress hvalid hsized

end Calls

/-! ### The server -/

/-- What both sides know a method by. -/
structure Choice where
  kex : List UInt8
  hostkey : List UInt8
  cryptCs : List UInt8
  cryptSc : List UInt8
  macCs : List UInt8
  macSc : List UInt8
  compCs : List UInt8
  compSc : List UInt8
  deriving DecidableEq

/-- The names in a list. -/
def namesOf (text : List UInt8) : List (List UInt8) := (text.splitOn comma).filter (· ≠ [])

/-- The message of the other side read back. -/
def readHello : List UInt8 → Option Hello
  | [] => none
  | kind :: bytes =>
      if kind = 20 ∧ 16 ≤ bytes.length then
        (sizedMany 4 10 (bytes.drop 16)).bind fun
          | (lists, follows :: reserved) =>
              if reserved.length = 4 then some ⟨bytes.take 16, lists, follows⟩ else none
          | _ => none
      else none

/-- What a message has to offer. -/
def Hello.offer (m : Hello) : Option Offer :=
  match m.lists with
  | [kex, hostkey, cryptCs, cryptSc, macCs, macSc, compCs, compSc, _, _] =>
      some ⟨namesOf kex, namesOf hostkey, namesOf cryptCs, namesOf cryptSc, namesOf macCs,
        namesOf macSc, namesOf compCs, namesOf compSc⟩
  | _ => none

/-- The first name of the client that the server has too. -/
def firstCommon (client server : List (List UInt8)) : Option (List UInt8) :=
  client.find? server.contains

/-- A key exchange needs a host key that suits it. -/
def commonKexHostkey (suits : List UInt8 → List UInt8 → Bool) (client server : Offer) :
    Option (List UInt8 × List UInt8) :=
  client.kex.findSome? fun k =>
    if server.kex.contains k then
      (client.hostkey.find? fun h => server.hostkey.contains h && suits k h).map fun h => (k, h)
    else none

def commonChoice (suits : List UInt8 → List UInt8 → Bool) (client server : Offer) :
    Option Choice :=
  (commonKexHostkey suits client server).bind fun k =>
    (firstCommon client.cryptCs server.cryptCs).bind fun cryptCs =>
      (firstCommon client.cryptSc server.cryptSc).bind fun cryptSc =>
        (firstCommon client.macCs server.macCs).bind fun macCs =>
          (firstCommon client.macSc server.macSc).bind fun macSc =>
            (firstCommon client.compCs server.compCs).bind fun compCs =>
              (firstCommon client.compSc server.compSc).map fun compSc =>
                ⟨k.1, k.2, cryptCs, cryptSc, macCs, macSc, compCs, compSc⟩

/-- What a server that has sent one message makes of the message of the client. -/
def serverChoice (suits : List UInt8 → List UInt8 → Bool) (server : Hello)
    (message : List UInt8) : Option Choice :=
  (readHello message).bind fun client =>
    client.offer.bind fun c => server.offer.bind fun s => commonChoice suits c s

/-- The methods of a session, where it has one of each kind. -/
def Session.choice (session : Session) : Option Choice :=
  session.kex.bind fun kex => session.hostkey.bind fun hostkey =>
    session.localData.crypt.bind fun cryptCs => session.remoteData.crypt.bind fun cryptSc =>
      session.localData.mac.bind fun macCs => session.remoteData.mac.bind fun macSc =>
        session.localData.comp.bind fun compCs => session.remoteData.comp.map fun compSc =>
          ⟨nameOf kex, nameOf hostkey, nameOf cryptCs, nameOf cryptSc, nameOf macCs, nameOf macSc,
            nameOf compCs, nameOf compSc⟩

def Agreement.choice (a : Agreement) : Choice :=
  ⟨nameOf a.kex, nameOf a.hostkey, nameOf a.cryptCs, nameOf a.cryptSc, nameOf a.macCs,
    nameOf a.macSc, nameOf a.compCs, nameOf a.compSc⟩

/-! ### The same names -/

section Names
variable {μ : Type} [Named μ]

/-- A method is known by a name that is not empty. -/
theorem mem_namesOf {m : μ} {text : List UInt8} :
    nameOf m ∈ namesOf text ↔ nameOf m ∈ text.splitOn comma := by
  rw [namesOf, List.mem_filter]
  exact and_iff_left (decide_eq_true (nameOf_ne_nil m))

/-- The list of the client names its methods in their order. -/
theorem namesOf_listText {prefs : Option CText} {methods : List μ}
    (h : Supported prefs methods) :
    namesOf (listText prefs methods) = (preferred prefs methods).map nameOf := by
  cases prefs with
  | none =>
      cases methods with
      | nil => rfl
      | cons m methods =>
          have hsplit : ([comma].intercalate ((m :: methods).map nameOf)).splitOn comma =
              (m :: methods).map nameOf := by
            refine List.splitOn_intercalate comma ?_ (List.cons_ne_nil _ _)
            intro s hs
            obtain ⟨m, -, rfl⟩ := List.mem_map.mp hs
            exact comma_notMem_nameOf m
          rw [namesOf, listText, hsplit, preferred, List.filter_eq_self]
          intro s hs
          obtain ⟨m, -, rfl⟩ := List.mem_map.mp hs
          exact decide_eq_true (nameOf_ne_nil m)
  | some text =>
      have hnames := h text rfl
      rw [namesOf, listText, preferred]
      generalize text.chars.splitOn comma = names at hnames
      induction names with
      | nil => rfl
      | cons s names ih =>
          have hrest := ih fun t ht => hnames t (List.mem_cons_of_mem s ht)
          by_cases hempty : s = []
          · rw [hempty, List.filter_cons_of_neg (by simp),
              List.filterMap_cons_none (byName_nil methods), hrest]
          · obtain ⟨m, hm⟩ := Option.isSome_iff_exists.mp (hnames s List.mem_cons_self hempty)
            rw [List.filter_cons_of_pos (by simpa using hempty), List.filterMap_cons_some hm,
              List.map_cons, hrest, nameOf_of_byName hm]

/-- The choice of the library and that of the server. -/
theorem firstCommon_eq {prefs : Option CText} {methods : List μ} (h : Supported prefs methods)
    (text : List UInt8) : firstCommon (namesOf (listText prefs methods)) (namesOf text) =
      (firstOffered prefs methods (text.splitOn comma)).map nameOf := by
  rw [firstCommon, namesOf_listText h, List.find?_map, firstOffered]
  simp only [Function.comp_def, List.contains_eq_mem, mem_namesOf]

end Names

section Choices
variable {tables : Tables} {session : Session} {suits : List UInt8 → List UInt8 → Bool}

/-- The server knows of the methods of the client which host key suits which key exchange. -/
def Suits (tables : Tables) (suits : List UInt8 → List UInt8 → Bool) : Prop :=
  ∀ k ∈ tables.kex, ∀ h ∈ tables.hostkey, suits (nameOf k) (nameOf h) = hostkeySuits k h

theorem mem_of_mem_preferred {μ : Type} [Named μ] {prefs : Option CText} {methods : List μ} {m : μ}
    (h : m ∈ preferred prefs methods) : m ∈ methods := by
  cases prefs with
  | none => exact h
  | some text =>
      obtain ⟨s, -, hs⟩ := List.mem_filterMap.mp h
      exact List.mem_of_find?_eq_some hs

theorem commonKexHostkey_eq (hvalid : session.Valid tables) (hsuits : Suits tables suits)
    {client server : Offer} {kexText hostkeyText : List UInt8}
    (hkex : client.kex = namesOf (listText session.kexPrefs tables.kex))
    (hhostkey : client.hostkey = namesOf (listText session.hostkeyPrefs tables.hostkey))
    (hkexText : server.kex = namesOf kexText)
    (hhostkeyText : server.hostkey = namesOf hostkeyText) :
    commonKexHostkey suits client server =
      (firstKexHostkey tables session (kexText.splitOn comma) (hostkeyText.splitOn comma)).map
        fun p => (nameOf p.1, nameOf p.2) := by
  rw [commonKexHostkey, firstKexHostkey, hkex, hhostkey, hkexText, hhostkeyText,
    namesOf_listText hvalid.kex, namesOf_listText hvalid.hostkey, List.findSome?_map,
    List.map_findSome?]
  refine findSome?_congr fun k hk => ?_
  have hfind : (preferred session.hostkeyPrefs tables.hostkey).find?
        ((fun h => (namesOf hostkeyText).contains h && suits (nameOf k) h) ∘ nameOf) =
      hostkeyFor tables session (hostkeyText.splitOn comma) k := by
    refine List.find?_congr fun h hh => ?_
    rw [Function.comp_apply, hsuits k (mem_of_mem_preferred hk) h (mem_of_mem_preferred hh)]
    simp only [List.contains_eq_mem, mem_namesOf]
  rw [Function.comp_apply, Function.comp_apply, List.find?_map, hfind]
  simp only [List.contains_eq_mem, decide_eq_true_eq, mem_namesOf]
  split
  · simp only [Option.map_map, Function.comp_def]
  · rfl

/-- Lists of a client and a server, and the choice of either side. -/
theorem commonChoice_eq (hvalid : session.Valid tables) (hsuits : Suits tables suits)
    (kex hostkey cryptCs cryptSc macCs macSc compCs compSc : List UInt8) :
    commonChoice suits
      ⟨namesOf (listText session.kexPrefs tables.kex),
        namesOf (listText session.hostkeyPrefs tables.hostkey),
        namesOf (listText session.localData.cryptPrefs tables.crypt),
        namesOf (listText session.remoteData.cryptPrefs tables.crypt),
        namesOf (listText session.localData.macPrefs tables.mac),
        namesOf (listText session.remoteData.macPrefs tables.mac),
        namesOf (listText session.localData.compPrefs tables.comp),
        namesOf (listText session.remoteData.compPrefs tables.comp)⟩
      ⟨namesOf kex, namesOf hostkey, namesOf cryptCs, namesOf cryptSc, namesOf macCs,
        namesOf macSc, namesOf compCs, namesOf compSc⟩ =
    (negotiate tables session ⟨kex.splitOn comma, hostkey.splitOn comma, cryptCs.splitOn comma,
      cryptSc.splitOn comma, macCs.splitOn comma, macSc.splitOn comma, compCs.splitOn comma,
      compSc.splitOn comma⟩).map Agreement.choice := by
  rw [commonChoice, commonKexHostkey_eq hvalid hsuits rfl rfl rfl rfl]
  simp only [firstCommon_eq hvalid.cryptCs, firstCommon_eq hvalid.cryptSc,
    firstCommon_eq hvalid.macCs, firstCommon_eq hvalid.macSc, firstCommon_eq hvalid.compCs,
    firstCommon_eq hvalid.compSc, negotiate, Option.bind_map, Option.map_bind, Option.map_map,
    Function.comp_def, Agreement.choice]

end Choices

/-! ### The messages -/

section Messages

theorem readHello_wire {m : Hello} (hcookie : m.cookie.length = 16) (hlists : m.lists.length = 10)
    (hsmall : ∀ text ∈ m.lists, text.length < 256 ^ 4) : readHello m.wire = some m := by
  have htake :
      (m.cookie ++ (m.lists.flatMap (putSized 4) ++ ([m.follows] ++ bigEndian 4 0))).take 16 =
        m.cookie := List.take_left' hcookie
  have hdrop :
      (m.cookie ++ (m.lists.flatMap (putSized 4) ++ ([m.follows] ++ bigEndian 4 0))).drop 16 =
        m.lists.flatMap (putSized 4) ++ ([m.follows] ++ bigEndian 4 0) := List.drop_left' hcookie
  have hmany := sizedMany_putSized hsmall ([m.follows] ++ bigEndian 4 0)
  rw [hlists] at hmany
  rw [Hello.wire, List.singleton_append, readHello, if_pos ⟨rfl, by simp [hcookie]⟩, hdrop, hmany,
    htake]
  rfl

/-- The ten lists of a message, and the bounds on their lengths. -/
theorem lists_eq {m : Hello} (hlists : m.lists.length = 10) : ∃ kex hostkey cryptCs cryptSc macCs
    macSc compCs compSc langCs langSc, m.lists = [kex, hostkey, cryptCs, cryptSc, macCs, macSc,
      compCs, compSc, langCs, langSc] := by
  match m, hlists with
  | ⟨_, [_, _, _, _, _, _, _, _, _, _], _⟩, _ => exact ⟨_, _, _, _, _, _, _, _, _, _, rfl⟩

theorem list_lt {m : Hello} (hsize : m.wire.length < 2 ^ 32) :
    ∀ text ∈ m.lists, text.length < 256 ^ 4 := by
  intro text htext
  obtain ⟨before, after, hparts⟩ := List.append_of_mem htext
  rw [length_wire, hparts, List.flatMap_append, List.flatMap_cons, List.length_append,
    List.length_append, putSized, List.length_append] at hsize
  omega

/-- The library takes the first byte of the ninth list for the flag. -/
theorem serverOffer_wire {m : Hello} {kex hostkey cryptCs cryptSc macCs macSc compCs compSc langCs
    langSc : List UInt8} (hcookie : m.cookie.length = 16)
    (hlists : m.lists = [kex, hostkey, cryptCs, cryptSc, macCs, macSc, compCs, compSc, langCs,
      langSc])
    (hsize : m.wire.length < 2 ^ 32) :
    serverOffer m.wire = some (⟨kex.splitOn comma, hostkey.splitOn comma, cryptCs.splitOn comma,
      cryptSc.splitOn comma, macCs.splitOn comma, macSc.splitOn comma, compCs.splitOn comma,
      compSc.splitOn comma⟩, lowBit (UInt8.ofNat (langCs.length / 256 ^ 3))) := by
  have hsmall := list_lt hsize
  rw [hlists] at hsmall
  have hdrop : m.wire.drop 17 =
      m.lists.flatMap (putSized 4) ++ ([m.follows] ++ bigEndian 4 0) := by
    rw [Hello.wire, ← List.append_assoc]
    exact List.drop_left' (by rw [List.length_append, hcookie]; rfl)
  have hsplit : m.lists.flatMap (putSized 4) ++ ([m.follows] ++ bigEndian 4 0) =
      [kex, hostkey, cryptCs, cryptSc, macCs, macSc, compCs, compSc].flatMap (putSized 4) ++
        (UInt8.ofNat (langCs.length / 256 ^ 3) :: (bigEndian 3 langCs.length ++ langCs ++
          (putSized 4 langSc ++ ([m.follows] ++ bigEndian 4 0)))) := by
    rw [hlists, ← List.cons_append, ← List.cons_append, ← bigEndian_succ]
    simp only [List.flatMap_cons, List.flatMap_nil, List.append_assoc, List.nil_append, putSized]
  have height : ∀ text ∈ [kex, hostkey, cryptCs, cryptSc, macCs, macSc, compCs, compSc],
      text.length < 256 ^ 4 := fun text htext =>
    hsmall text (List.mem_append_left [langCs, langSc] htext)
  have hmany := sizedMany_putSized height
    (UInt8.ofNat (langCs.length / 256 ^ 3) :: (bigEndian 3 langCs.length ++ langCs ++
      (putSized 4 langSc ++ ([m.follows] ++ bigEndian 4 0))))
  rw [serverOffer, hdrop, hsplit]
  exact congrArg (fun x => Option.bind x _) hmany

end Messages

/-! ### Both ends -/

section BothEnds
variable {tables : Tables}

theorem choice_agreedOn (session : Session) (a : Agreement) (burn : Bool) :
    (session.agreedOn a burn).choice = some a.choice := rfl

/-- The message of a session: it fills the block that is allocated for it, whatever was there. -/
def Announces (tables : Tables) (session : Session) (cookie message : List UInt8) : Prop :=
  message.length = kexinitLen tables session ∧
    ∀ data : List UInt8, data.length = kexinitLen tables session →
      kexinit tables session cookie data = some message

/-- A server with both ciphers and another key exchange, which it guesses. -/
def guessingServer : Hello where
  cookie := List.replicate 16 9
  lists := [[122, 44, 97], [97], [97, 44, 98], [97, 44, 98], [97], [97], [97], [97], [], []]
  follows := 1

theorem suits_twoCiphers : Suits twoCiphers fun _ _ => true := by
  intro k hk h hh
  obtain rfl := List.mem_singleton.mp hk
  obtain rfl := List.mem_singleton.mp hh
  rfl

/-- A message whose languages are of a usual length never makes the library wait for a guess. -/
theorem agree_wire {session : Session} (hvalid : session.Valid tables) {m : Hello}
    {kex hostkey cryptCs cryptSc macCs macSc compCs compSc langCs langSc : List UInt8}
    (hcookie : m.cookie.length = 16)
    (hlists : m.lists = [kex, hostkey, cryptCs, cryptSc, macCs, macSc, compCs, compSc, langCs,
      langSc])
    (hsize : m.wire.length < 2 ^ 32) (hlang : langCs.length < 256 ^ 3) :
    ∃ after, kexAgreeMethods tables session m.wire =
        some ((negotiate tables session ⟨kex.splitOn comma, hostkey.splitOn comma,
          cryptCs.splitOn comma, cryptSc.splitOn comma, macCs.splitOn comma, macSc.splitOn comma,
          compCs.splitOn comma, compSc.splitOn comma⟩).isSome, after) ∧
      ∀ a ∈ negotiate tables session ⟨kex.splitOn comma, hostkey.splitOn comma,
          cryptCs.splitOn comma, cryptSc.splitOn comma, macCs.splitOn comma, macSc.splitOn comma,
          compCs.splitOn comma, compSc.splitOn comma⟩, after = session.agreedOn a false := by
  have hoffer := serverOffer_wire hcookie hlists hsize
  have hzero : lowBit (UInt8.ofNat (langCs.length / 256 ^ 3)) = false := by
    rw [Nat.div_eq_of_lt hlang]
    rfl
  obtain ⟨after, hagree, -, hafter⟩ := kexAgreeMethods_eq hvalid hsize
  rw [hoffer, Option.bind_some] at hagree
  refine ⟨after, hagree, fun a ha => ?_⟩
  rw [hafter _ hoffer a ha, hzero, burnAfter, ite_self]

/-- Whether the packet behind the message is a guess of the server is not seen: the library goes on
in the same way whatever the message says about it, and takes no packet for a wrong guess. -/
theorem guess_flag_not_seen {session : Session} (hvalid : session.Valid tables) {server : Hello}
    (hserver : server.cookie.length = 16) (hlists : server.lists.length = 10)
    (hsize : server.wire.length < 2 ^ 32)
    (hlang : ∀ langCs ∈ server.lists[8]?, langCs.length < 2 ^ 24) :
    ∃ ok after, kexAgreeMethods tables session server.wire = some (ok, after) ∧
      (ok = true → after.burnOptimisticKexinit = false) ∧
      ∀ flag, ∃ after', kexAgreeMethods tables session { server with follows := flag }.wire =
        some (ok, after') ∧ (ok = true → after' = after) := by
  obtain ⟨kex, hostkey, cryptCs, cryptSc, macCs, macSc, compCs, compSc, langCs, langSc, hten⟩ :=
    lists_eq hlists
  have hshort : langCs.length < 256 ^ 3 := hlang langCs (by rw [hten]; rfl)
  obtain ⟨after, hagree, hafter⟩ := agree_wire hvalid hserver hten hsize hshort
  refine ⟨_, after, hagree, fun hok => ?_, fun flag => ?_⟩
  · obtain ⟨a, ha⟩ := Option.isSome_iff_exists.mp hok
    rw [hafter a ha]
    rfl
  · have hsize' : (Hello.wire { server with follows := flag }).length < 2 ^ 32 := by
      rw [length_wire] at hsize ⊢
      exact hsize
    have hserver' : (Hello.cookie { server with follows := flag }).length = 16 := hserver
    obtain ⟨after', hagree', hafter'⟩ := agree_wire hvalid hserver' hten hsize' hshort
    refine ⟨after', hagree', fun hok => ?_⟩
    obtain ⟨a, ha⟩ := Option.isSome_iff_exists.mp hok
    rw [hafter a ha, hafter' a ha]

theorem guess_flag_not_seen_wrong : ∃ after,
    kexAgreeMethods twoCiphers freshSession guessingServer.wire = some (true, after) ∧
      after.burnOptimisticKexinit = false := by
  have hcookie : guessingServer.cookie.length = 16 := rfl
  obtain ⟨ok, after, hagree, hburn, -⟩ := guess_flag_not_seen (valid_fresh twoCiphers) hcookie rfl
    (by decide) (fun langCs hlang => by cases hlang; decide)
  have hok : (kexAgreeMethods twoCiphers freshSession guessingServer.wire).map Prod.fst =
      some true := rfl
  rw [hagree] at hok
  obtain rfl := Option.some.inj hok
  exact ⟨after, hagree, hburn rfl⟩

end BothEnds

end InfoGlobe.Ssh
