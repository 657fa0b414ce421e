import InfoGlobe.Ssh.NameList

/-!
The choice of the methods of a session. The server offers a list of names for each kind of method;
the library takes the first method of its own that the server offers too. Its own order is that of
its tables, or of a list of names that a caller has set.
-/

namespace InfoGlobe.Ssh
open CheckedBlock StringCompare WireFormat

/-- A name that can stand in a list of names. -/
structure MethodName where
  chars : List UInt8
  nonempty : chars ≠ []
  no_comma : comma ∉ chars
  no_nul : 0 ∉ chars

/-- What all kinds of methods begin with. -/
class Named (μ : Type) where
  name : μ → MethodName

/-- A cipher, a message authentication hash or a compression. -/
structure Method where
  name : MethodName

/-- A key exchange, with its flags. -/
structure KexMethod where
  name : MethodName
  reqEncHostkey : Bool
  reqSignHostkey : Bool

/-- A host key, with whether it has the functions `encrypt` and `sig_verify`. -/
structure HostkeyMethod where
  name : MethodName
  encrypt : Bool
  sigVerify : Bool

instance : Named Method := ⟨Method.name⟩
instance : Named KexMethod := ⟨KexMethod.name⟩
instance : Named HostkeyMethod := ⟨HostkeyMethod.name⟩

/-- The characters of the name of a method. -/
def nameOf {μ : Type} [Named μ] (m : μ) : List UInt8 := (Named.name m).chars

def kexGetMethodByName {μ : Type} [Named μ] (methods : List μ) (name : List UInt8) : Option μ :=
  methods.find? fun m => nameOf m = name

/-! ### The loops -/

section Loops
variable {μ σ : Type} [Named μ]

/-- Where a list of names is in the packet. -/
structure NamePtr where
  off : Nat
  len : Nat

def NamePtr.search (block : List UInt8) (p : NamePtr) (name : List UInt8) : Access (Option Nat) :=
  kexAgreeInstr block p.off p.len name

/-- The loop over the preferences, `s` being at the first of the names that are left. -/
def prefsLoop (search : List UInt8 → Access (Option Nat)) (methods : List μ)
    (suits : μ → Nat → Access (Option σ)) : List (List UInt8) → Access (Option σ)
  | [] => some none
  | [[]] => some none
  | s :: names =>
      (search s).bind fun
        | none => prefsLoop search methods suits names
        | some q =>
            match kexGetMethodByName methods s with
            | none => some none
            | some method =>
                (suits method q).bind fun
                  | some agreed => some (some agreed)
                  | none => prefsLoop search methods suits names

/-- The loop over the table of methods. -/
def methodsLoop (search : List UInt8 → Access (Option Nat))
    (suits : μ → Nat → Access (Option σ)) : List μ → Access (Option σ)
  | [] => some none
  | method :: methods =>
      (search (nameOf method)).bind fun
        | none => methodsLoop search suits methods
        | some q =>
            (suits method q).bind fun
              | some agreed => some (some agreed)
              | none => methodsLoop search suits methods

/-- What the functions that agree on a method have in common. -/
def agree (search : List UInt8 → Access (Option Nat)) (prefs : Option CText) (methods : List μ)
    (suits : μ → Nat → Access (Option σ)) : Access (Option σ) :=
  match prefs with
  | some text => prefsLoop search methods suits (text.chars.splitOn comma)
  | none => methodsLoop search suits methods

end Loops

/-! ### The session -/

/-- The tables of the methods that the library has been built with. -/
structure Tables where
  kex : List KexMethod
  hostkey : List HostkeyMethod
  crypt : List Method
  mac : List Method
  comp : List Method

/-- `libssh2_endpoint_data`. -/
structure Endpoint where
  cryptPrefs : Option CText
  macPrefs : Option CText
  compPrefs : Option CText
  langPrefs : Option CText
  crypt : Option Method
  mac : Option Method
  comp : Option Method

structure Session where
  kexPrefs : Option CText
  hostkeyPrefs : Option CText
  signAlgoPrefs : Option CText
  localData : Endpoint
  remoteData : Endpoint
  kex : Option KexMethod
  hostkey : Option HostkeyMethod
  burnOptimisticKexinit : Bool

/-- Whether a host key can do what a key exchange asks of it. -/
def hostkeySuits (kex : KexMethod) (hostkey : HostkeyMethod) : Bool :=
  (!kex.reqEncHostkey || hostkey.encrypt) && (!kex.reqSignHostkey || hostkey.sigVerify)

def kexAgreeHostkey (tables : Tables) (session : Session) (block : List UInt8) (kex : KexMethod)
    (hostkey : NamePtr) : Access (Option HostkeyMethod) :=
  agree (hostkey.search block) session.hostkeyPrefs tables.hostkey fun method _ =>
    some (if hostkeySuits kex method then some method else none)

/-- The third result is where the name has been found. -/
def kexAgreeKexHostkey (tables : Tables) (session : Session) (block : List UInt8)
    (kex hostkey : NamePtr) : Access (Option (KexMethod × HostkeyMethod × Nat)) :=
  agree (kex.search block) session.kexPrefs tables.kex fun method q =>
    (kexAgreeHostkey tables session block method hostkey).map fun found =>
      found.map fun hostkey => (method, hostkey, q)

/-- Any method will do. -/
def anyMethod (method : Method) (_ : Nat) : Access (Option Method) := some (some method)

def kexAgreeCrypt (tables : Tables) (endpoint : Endpoint) (block : List UInt8) (crypt : NamePtr) :
    Access (Option Method) :=
  agree (crypt.search block) endpoint.cryptPrefs tables.crypt anyMethod

def kexAgreeMac (tables : Tables) (endpoint : Endpoint) (block : List UInt8) (mac : NamePtr) :
    Access (Option Method) :=
  agree (mac.search block) endpoint.macPrefs tables.mac anyMethod

def kexAgreeComp (tables : Tables) (endpoint : Endpoint) (block : List UInt8) (comp : NamePtr) :
    Access (Option Method) :=
  agree (comp.search block) endpoint.compPrefs tables.comp anyMethod

/-! ### The packet -/

/-- A part of `kex_agree_methods`: whether to go on, and the session. -/
abbrev Part := Session → Access (Bool × Session)

/-- The session with what has been agreed on, or the end. -/
def part {σ : Type} (agreed : Session → Access (Option σ)) (set : Session → σ → Session) : Part :=
  fun session => (agreed session).map fun
    | none => (false, session)
    | some x => (true, set session x)

def Part.andThen (first second : Part) : Part := fun session =>
  (first session).bind fun r => if r.1 then second r.2 else some (false, r.2)

def getStrings : Nat → StringBuf → Access (Option (List NamePtr) × StringBuf)
  | 0, buf => some (some [], buf)
  | k + 1, buf =>
      (getString buf).bind fun
        | (none, buf) => some (none, buf)
        | (some (off, len), buf) =>
            (getStrings k buf).map fun out => (out.1.map (⟨off, len⟩ :: ·), out.2)

section Parts
variable (tables : Tables) (block : List UInt8)

def kexPart (kex hostkey : NamePtr) : Part :=
  part (fun session => kexAgreeKexHostkey tables session block kex hostkey)
    fun session x =>
      { session with
        kex := some x.1
        hostkey := some x.2.1
        burnOptimisticKexinit :=
          if session.burnOptimisticKexinit ∧ kex.off = x.2.2 then false
          else session.burnOptimisticKexinit }

def cryptParts (cryptCs cryptSc : NamePtr) : Part :=
  (part (fun session => kexAgreeCrypt tables session.localData block cryptCs)
    fun session m =>
      { session with localData := { session.localData with crypt := some m } }).andThen
  (part (fun session => kexAgreeCrypt tables session.remoteData block cryptSc)
    fun session m => { session with remoteData := { session.remoteData with crypt := some m } })

def macParts (macCs macSc : NamePtr) : Part :=
  (part (fun session => kexAgreeMac tables session.localData block macCs)
    fun session m =>
      { session with localData := { session.localData with mac := some m } }).andThen
  (part (fun session => kexAgreeMac tables session.remoteData block macSc)
    fun session m => { session with remoteData := { session.remoteData with mac := some m } })

def compParts (compCs compSc : NamePtr) : Part :=
  (part (fun session => kexAgreeComp tables session.localData block compCs)
    fun session m =>
      { session with localData := { session.localData with comp := some m } }).andThen
  (part (fun session => kexAgreeComp tables session.remoteData block compSc)
    fun session m => { session with remoteData := { session.remoteData with comp := some m } })

end Parts

/-- A byte in a field of one bit. -/
def lowBit (b : UInt8) : Bool := b % 2 == 1

/-- Whether the methods have been agreed on, and the session. -/
def kexAgreeMethods (tables : Tables) (session : Session) (data : List UInt8) :
    Access (Bool × Session) :=
  if data.length < 17 then some (false, session)
  else
    (getStrings 8 ⟨data, 17, data.length⟩).bind fun
      | (some [kex, hostkey, cryptCs, cryptSc, macCs, macSc, compCs, compSc], buf) =>
          if checkLength buf 1 then
            (load buf.data buf.dataptr).bind fun burn =>
              ((kexPart tables data kex hostkey).andThen
                ((cryptParts tables data cryptCs cryptSc).andThen
                  ((macParts tables data macCs macSc).andThen
                    (compParts tables data compCs compSc))))
                { session with burnOptimisticKexinit := lowBit burn }
          else some (false, session)
      | _ => some (false, session)

end InfoGlobe.Ssh
