import InfoGlobe.Ssh.Negotiation

/-!
The preferences that a caller can set. The text of the caller is copied, and the names that the
library does not have are taken out of the copy, in place. What stays is always a list of names that
the negotiation can rely on.
-/

namespace InfoGlobe.Ssh
open CheckedBlock StringCompare ListParts

/-- `strlen` of the text at `s`. -/
def strlenAt (block : List UInt8) (s : Nat) : Access Nat := (block.drop s).findIdx? (· == 0)

/-- `strchr(s, ',')`, the length of the text at `s` being known. -/
def strchrAt (block : List UInt8) (s len : Nat) : Access (Option Nat) := memchr block comma s len

/-- The text at the beginning of a block, which is within the addresses of the machine. -/
def textOf (block : List UInt8) : Access CText :=
  if h : 0 ∈ block ∧ block.length ≤ 2 ^ 32 then
    some {
      chars := block.takeWhile (· != 0)
      free := fun hmem => absurd (List.mem_takeWhile_imp hmem) (by decide)
      fits := by
        have hlen := (List.takeWhile_sublist (· != 0) (l := block)).length_le
        refine Nat.lt_of_le_of_ne (Nat.le_trans hlen h.2) fun heq => ?_
        have hall : block.takeWhile (· != 0) = block :=
          (List.takeWhile_sublist (· != 0)).eq_of_length (by omega)
        have hzero := List.mem_takeWhile_imp (hall.symm ▸ h.1)
        exact absurd hzero (by decide) }
  else none

inductive MethodType where
  | kex
  | hostkey
  | cryptCs
  | cryptSc
  | macCs
  | macSc
  | compCs
  | compSc
  | langCs
  | langSc
  | signAlgo
  | other
  deriving DecidableEq

/-- What the call can fail with. -/
inductive PrefError where
  | inval
  | alloc
  | methodNotSupported
  deriving DecidableEq

/-- `memcpy` within a block: where to, where from and how many bytes. -/
abbrev Memcpy := List UInt8 → Nat → Nat → Nat → Access (List UInt8)

/-- It copies the bytes to a place further down also where the two places overlap, which the C
standard leaves open. -/
def CopiesDown (memcpy : Memcpy) : Prop :=
  ∀ block dst src n, dst < src →
    memcpy block dst src n = (loadMany block src n).bind fun xs => store block dst xs

section Strip
variable {μ : Type} [Named μ]

/-- The body of the loop, `name` being at `s` and a comma at `p` or nowhere. Without its name a
text of `len` characters is copied; the two places may overlap. -/
def stripTurn (memcpy : Memcpy) (methods : List μ) (loop : List UInt8 → Nat → Access (List UInt8))
    (block : List UInt8) (s len : Nat) (name : List UInt8) (p : Option Nat) :
    Access (List UInt8) :=
  match kexGetMethodByName methods name, p with
  | some _, some p => loop block (p + 1)
  | some _, none => some block
  | none, some p =>
      (memcpy block s (p + 1) (len - name.length)).bind fun block => loop block s
  | none, none =>
      if 0 < s then (store block (s - 1) [0]).bind fun block => loop block (s - 1)
      else (store block s [0]).bind fun block => loop block s

/-- The loop over the names of the copy. -/
def stripLoop (memcpy : Memcpy) (methods : List μ) : Nat → List UInt8 → Nat → Access (List UInt8)
  | 0, _, _ => none
  | turns + 1, block, s =>
      (load block s).bind fun c =>
        if c = 0 then some block
        else
          (strlenAt block s).bind fun len =>
            (strchrAt block s len).bind fun p =>
              (loadMany block s (p.elim len fun p => p - s)).bind fun name =>
                stripTurn memcpy methods (stripLoop memcpy methods turns) block s len name p

/-- The new preferences, where there is memory for the copy. -/
def newPrefs (memcpy : Memcpy) (methods : Option (List μ)) (prefs : CText) (allocated : Bool) :
    Access (Except PrefError CText) :=
  if allocated then
    (match methods with
      | some methods => stripLoop memcpy methods (prefs.chars.length + 1) (prefs.chars ++ [0]) 0
      | none => some (prefs.chars ++ [0])).bind fun block =>
        (load block 0).bind fun c =>
          if c = 0 then some (.error .methodNotSupported) else (textOf block).map .ok
  else some (.error .alloc)

end Strip

/-- A table of methods of any kind, seen as `LIBSSH2_COMMON_METHOD`. -/
def common {μ : Type} [Named μ] (methods : List μ) : List Method :=
  methods.map fun m => ⟨Named.name m⟩

/-- `mlist`. -/
def Tables.mlist (tables : Tables) : MethodType → Option (List Method)
  | .kex => some (common tables.kex)
  | .hostkey => some (common tables.hostkey)
  | .cryptCs | .cryptSc => some (common tables.crypt)
  | .macCs | .macSc => some (common tables.mac)
  | .compCs | .compSc => some (common tables.comp)
  | .langCs | .langSc | .signAlgo | .other => none

/-- The session with a text in `prefvar`. -/
def Session.setPref (session : Session) (text : CText) : MethodType → Session
  | .kex => { session with kexPrefs := some text }
  | .hostkey => { session with hostkeyPrefs := some text }
  | .cryptCs => { session with localData := { session.localData with cryptPrefs := some text } }
  | .cryptSc => { session with remoteData := { session.remoteData with cryptPrefs := some text } }
  | .macCs => { session with localData := { session.localData with macPrefs := some text } }
  | .macSc => { session with remoteData := { session.remoteData with macPrefs := some text } }
  | .compCs => { session with localData := { session.localData with compPrefs := some text } }
  | .compSc => { session with remoteData := { session.remoteData with compPrefs := some text } }
  | .langCs => { session with localData := { session.localData with langPrefs := some text } }
  | .langSc => { session with remoteData := { session.remoteData with langPrefs := some text } }
  | .signAlgo => { session with signAlgoPrefs := some text }
  | .other => session

/-- The session as it is behind the call, or what the call fails with. -/
def methodPref (memcpy : Memcpy) (tables : Tables) (session : Session) (methodType : MethodType)
    (prefs : CText) (allocated : Bool) : Access (Except PrefError Session) :=
  if methodType = .other then some (.error .inval)
  else (newPrefs memcpy (tables.mlist methodType) prefs allocated).map fun r =>
    r.map fun text => session.setPref text methodType

/-! ### The names that stay -/

section Names
variable {μ : Type} [Named μ]

/-- The names that the library has, and an empty one at the end. -/
def stripped (methods : List μ) : List (List UInt8) → List (List UInt8)
  | [] => []
  | [last] =>
      if last = [] ∨ (kexGetMethodByName methods last).isSome = true then [last] else []
  | name :: next :: names =>
      if (kexGetMethodByName methods name).isSome = true then
        name :: stripped methods (next :: names)
      else stripped methods (next :: names)

def strippedText (methods : List μ) (names : List (List UInt8)) : List UInt8 :=
  [comma].intercalate (stripped methods names)

end Names

section Names
variable {μ : Type} [Named μ] {methods : List μ} {names : List (List UInt8)}

theorem stripped_sublist (methods : List μ) (names : List (List UInt8)) :
    (stripped methods names).Sublist names := by
  fun_induction stripped methods names with
  | case1 => exact List.Sublist.refl []
  | case2 last h => exact List.Sublist.refl [last]
  | case3 last h => exact List.nil_sublist [last]
  | case4 name next names h ih => exact ih.cons_cons name
  | case5 name next names h ih => exact ih.cons name

theorem supported_of_mem_stripped {s : List UInt8} (h : s ∈ stripped methods names)
    (hne : s ≠ []) : (kexGetMethodByName methods s).isSome = true := by
  fun_induction stripped methods names with
  | case1 => cases h
  | case2 last hlast =>
      obtain rfl := List.mem_singleton.mp h
      exact hlast.resolve_left hne
  | case3 last hlast => cases h
  | case4 name next names hname ih =>
      cases h with
      | head => exact hname
      | tail _ h => exact ih h
  | case5 name next names hname ih => exact ih h

/-- Nothing that the library has is lost. -/
theorem filterMap_stripped (methods : List μ) (names : List (List UInt8)) :
    (stripped methods names).filterMap (kexGetMethodByName methods) =
      names.filterMap (kexGetMethodByName methods) := by
  fun_induction stripped methods names with
  | case1 => rfl
  | case2 last h => rfl
  | case3 last h =>
      have hnone : kexGetMethodByName methods last = none :=
        Option.not_isSome_iff_eq_none.mp fun hsome => h (.inr hsome)
      rw [List.filterMap_cons_none hnone]
  | case4 name next names h ih => rw [List.filterMap_cons, List.filterMap_cons, ih]
  | case5 name next names h ih =>
      rw [List.filterMap_cons_none (Option.not_isSome_iff_eq_none.mp h), ih]

theorem stripped_of_none (h : names.filterMap (kexGetMethodByName methods) = []) :
    stripped methods names = [] ∨ stripped methods names = [[]] := by
  have hnone : ∀ s ∈ names, ¬(kexGetMethodByName methods s).isSome = true := fun s hs hsome =>
    absurd (List.filterMap_eq_nil_iff.mp h s hs) (Option.isSome_iff_ne_none.mp hsome)
  clear h
  fun_induction stripped methods names with
  | case1 => exact .inl rfl
  | case2 last hlast =>
      obtain rfl := hlast.resolve_right (hnone last List.mem_cons_self)
      exact .inr rfl
  | case3 last hlast => exact .inl rfl
  | case4 name next names hname ih => exact absurd hname (hnone name List.mem_cons_self)
  | case5 name next names hname ih => exact ih fun s hs => hnone s (List.mem_cons_of_mem name hs)

/-- The text is empty exactly if the library has no name of it. -/
theorem strippedText_eq_nil : strippedText methods names = [] ↔
    names.filterMap (kexGetMethodByName methods) = [] := by
  constructor
  · intro h
    rw [← filterMap_stripped]
    rw [strippedText] at h
    cases hnames : stripped methods names with
    | nil => rfl
    | cons first rest =>
        rw [hnames, intercalate_cons] at h
        obtain ⟨rfl, htrailing⟩ := List.append_eq_nil_iff.mp h
        cases rest with
        | nil => rw [List.filterMap_cons_none (byName_nil methods)]; rfl
        | cons next rest => cases htrailing
  · intro h
    rcases stripped_of_none h with heq | heq <;> rw [strippedText, heq] <;> rfl

/-- The names of the text are the ones that have stayed. -/
theorem splitOn_strippedText (hfree : ∀ s ∈ names, comma ∉ s)
    (hne : strippedText methods names ≠ []) :
    (strippedText methods names).splitOn comma = stripped methods names := by
  refine List.splitOn_intercalate comma ?_ fun hnil => hne (by rw [strippedText, hnil]; rfl)
  exact fun s hs => hfree s ((stripped_sublist methods names).subset hs)

theorem mem_of_mem_strippedText {x : UInt8} (h : x ∈ strippedText methods names) :
    x = comma ∨ ∃ s ∈ names, x ∈ s := by
  have hsub := (stripped_sublist methods names).subset
  rw [strippedText] at h
  cases hnames : stripped methods names with
  | nil =>
      rw [hnames] at h
      cases h
  | cons first rest =>
      rw [hnames, intercalate_cons, List.mem_append, trailing, List.mem_flatMap] at h
      rw [hnames] at hsub
      rcases h with hfirst | ⟨s, hs, hx⟩
      · exact .inr ⟨first, hsub List.mem_cons_self, hfirst⟩
      · cases hx with
        | head => exact .inl rfl
        | tail _ hx => exact .inr ⟨s, hsub (List.mem_cons_of_mem first hs), hx⟩

end Names

/-! ### The loop -/

section Loop
variable {μ : Type} [Named μ] {memcpy : Memcpy} {methods : List μ} {block xs rest : List UInt8}
variable {s : Nat}

theorem strlenAt_eq (h : block.drop s = xs ++ 0 :: rest) (hxs : 0 ∉ xs) :
    strlenAt block s = some xs.length := by
  rw [strlenAt, h]
  clear h
  induction xs with
  | nil => rfl
  | cons c xs ih =>
      have hc : (c == 0) = false := beq_eq_false_iff_ne.mpr fun hc => hxs (hc ▸ List.mem_cons_self)
      rw [List.cons_append, List.findIdx?_cons, hc,
        ih fun hmem => hxs (List.mem_cons_of_mem c hmem)]
      rfl

theorem stripLoop_end {turns : Nat} (h : block.drop s = 0 :: rest) (hturns : 0 < turns) :
    stripLoop memcpy methods turns block s = some block := by
  obtain ⟨turns, rfl⟩ := Nat.exists_eq_succ_of_ne_zero (Nat.ne_of_gt hturns)
  rw [stripLoop, load_of_drop h]
  rfl

/-- A turn with the name in front of the rest of the text. -/
theorem stripLoop_turn {name tail : List UInt8} {p : Option Nat} {turns : Nat}
    (hdrop : block.drop s = name ++ (tail ++ 0 :: rest)) (hnul : 0 ∉ name ++ tail)
    (hne : name ++ tail ≠ []) (hp : memchr block comma s (name ++ tail).length = some p)
    (hlen : (p.elim (name ++ tail).length fun p => p - s) = name.length) :
    stripLoop memcpy methods (turns + 1) block s =
      stripTurn memcpy methods (stripLoop memcpy methods turns) block s (name ++ tail).length name
        p := by
  rw [← List.append_assoc] at hdrop
  obtain ⟨c, cs, hcs⟩ := List.exists_cons_of_ne_nil hne
  have hc : c ≠ 0 := fun hc => hnul (hcs ▸ hc ▸ List.mem_cons_self)
  have hload : load block s = some c := load_of_drop (by rw [hdrop, hcs, List.cons_append])
  have hi : s ≤ block.length := by
    have hlen := congrArg List.length hdrop
    rw [List.length_drop, hcs, List.cons_append, List.length_cons] at hlen
    omega
  have hmany : loadMany block s name.length = some name :=
    loadMany_of_drop (by rw [hdrop, List.append_assoc]) hi
  rw [stripLoop, hload, Option.bind_some, if_neg hc, strlenAt_eq hdrop hnul, Option.bind_some,
    strchrAt, hp, Option.bind_some, hlen, hmany, Option.bind_some]

/-- At the last name there is no comma any more. -/
theorem stripLoop_last {kept : List (List UInt8)} {name junk : List UInt8} {turns : Nat}
    (hname : comma ∉ name) (hnul : 0 ∉ name) (hturns : name.length < turns) :
    ∃ junk', stripLoop memcpy methods turns (leading comma kept ++ (name ++ 0 :: junk))
        (leading comma kept).length =
      some ([comma].intercalate (kept ++ stripped methods [name]) ++ 0 :: junk') := by
  have hdrop : (leading comma kept ++ (name ++ 0 :: junk)).drop (leading comma kept).length =
      name ++ 0 :: junk := List.drop_left
  by_cases hempty : name = []
  · subst hempty
    rw [stripLoop_end hdrop (Nat.zero_lt_of_lt hturns), stripped, if_pos (.inl rfl),
      intercalate_append_singleton, List.append_nil]
    exact ⟨junk, rfl⟩
  · obtain ⟨turns, rfl⟩ := Nat.exists_eq_succ_of_ne_zero (Nat.ne_of_gt (Nat.zero_lt_of_lt hturns))
    have hpos := List.length_pos_of_ne_nil hempty
    have hmissing : memchr (leading comma kept ++ (name ++ 0 :: junk)) comma
        (leading comma kept).length (name ++ []).length = some none :=
      memchr_missing hdrop hname (by rw [List.append_nil])
    have hwhole : (leading comma kept ++ (name ++ 0 :: junk)).drop (leading comma kept).length =
        name ++ ([] ++ 0 :: junk) := hdrop
    rw [stripLoop_turn hwhole (by rwa [List.append_nil]) (by simpa using hempty) hmissing (by simp),
      stripped]
    cases hbyName : kexGetMethodByName methods name with
    | some m =>
        rw [if_pos (.inr Option.isSome_some), intercalate_append_singleton]
        simp only [stripTurn, hbyName, List.append_assoc]
        exact ⟨junk, rfl⟩
    | none =>
        rw [if_neg (by simp [hempty]), List.append_nil]
        simp only [stripTurn, hbyName]
        rcases List.eq_nil_or_concat kept with rfl | ⟨kept, last, rfl⟩
        · obtain ⟨c, cs, rfl⟩ := List.exists_cons_of_ne_nil hempty
          have hfirst : store ([] ++ [c] ++ (cs ++ 0 :: junk)) 0 [0] =
              some ([] ++ [0] ++ (cs ++ 0 :: junk)) := store_between rfl
          have hstore : store (leading comma [] ++ (c :: cs ++ 0 :: junk))
              (leading comma []).length [0] = some (0 :: (cs ++ 0 :: junk)) := hfirst
          rw [if_neg (by simp [leading]), hstore, Option.bind_some]
          exact ⟨cs ++ 0 :: junk, stripLoop_end rfl (Nat.lt_of_lt_of_le hpos (by omega))⟩
        · rw [List.concat_eq_append, leading_append_singleton, List.append_nil,
            intercalate_append_singleton]
          have hstore : store (leading comma kept ++ last ++ [comma] ++ (name ++ 0 :: junk))
              (leading comma kept ++ last).length [0] =
              some (leading comma kept ++ last ++ [0] ++ (name ++ 0 :: junk)) :=
            store_between rfl
          have hs : (leading comma kept ++ last ++ [comma]).length =
              (leading comma kept ++ last).length + 1 := List.length_append
          have hend : (leading comma kept ++ last ++ [0] ++ (name ++ 0 :: junk)).drop
              (leading comma kept ++ last).length = 0 :: (name ++ 0 :: junk) := by
            rw [List.append_assoc (leading comma kept ++ last)]
            exact List.drop_left
          rw [hs, if_pos (Nat.succ_pos _), Nat.add_sub_cancel, hstore, Option.bind_some]
          refine ⟨name ++ 0 :: junk, (stripLoop_end hend (by omega)).trans ?_⟩
          rw [List.append_assoc (leading comma kept ++ last)]
          rfl

/-- What is behind a name and its comma moves down to the place of the name. -/
theorem memcpy_tail (hcopy : CopiesDown memcpy) (front name tail junk : List UInt8) :
    ∃ junk', memcpy (front ++ (name ++ comma :: tail ++ 0 :: junk)) front.length
        (front.length + name.length + 1) (tail ++ [0]).length =
      some (front ++ (tail ++ 0 :: junk')) := by
  have hdrop : (front ++ (name ++ comma :: tail ++ 0 :: junk)).drop front.length =
      name ++ ((comma :: tail) ++ 0 :: junk) := by
    rw [List.drop_left, List.append_assoc]
  have hbehind : (front ++ (name ++ comma :: tail ++ 0 :: junk)).drop
      (front.length + name.length + 1) = (tail ++ [0]) ++ junk := by
    rw [drop_succ_of_drop (drop_add_of_drop hdrop), List.append_assoc]
    rfl
  have hload := loadMany_of_drop hbehind
    (by simp only [List.length_append, List.length_cons]; omega)
  have hmoved : store (front ++ (name ++ comma :: tail ++ 0 :: junk)) front.length (tail ++ [0]) =
      some (front ++ (tail ++ [0]) ++
        (name ++ comma :: tail ++ 0 :: junk).drop (tail ++ [0]).length) := by
    refine store_over ?_
    simp only [List.length_append, List.length_cons, List.length_nil]
    omega
  refine ⟨(name ++ comma :: tail ++ 0 :: junk).drop (tail ++ [0]).length, ?_⟩
  rw [hcopy _ _ _ _ (by omega), hload, Option.bind_some, hmoved]
  simp only [List.append_assoc, List.singleton_append]

/-- The copy becomes the names that stay, whatever is behind it then. -/
theorem stripLoop_eq (hcopy : CopiesDown memcpy) (methods : List μ) {name : List UInt8}
    {names : List (List UInt8)} (kept : List (List UInt8)) (junk : List UInt8) {turns : Nat}
    (hfree : ∀ p ∈ name :: names, comma ∉ p) (hnul : 0 ∉ name ++ trailing comma names)
    (hturns : (name ++ trailing comma names).length < turns) :
    ∃ junk', stripLoop memcpy methods turns
        (leading comma kept ++ (name ++ trailing comma names ++ 0 :: junk))
        (leading comma kept).length =
      some ([comma].intercalate (kept ++ stripped methods (name :: names)) ++ 0 :: junk') := by
  induction names generalizing name kept junk turns with
  | nil =>
      have hname := hfree name List.mem_cons_self
      rw [trailing, List.flatMap_nil, List.append_nil] at hnul hturns ⊢
      exact stripLoop_last hname hnul hturns
  | cons next names ih =>
      have htrailing : trailing comma (next :: names) =
          comma :: (next ++ trailing comma names) := rfl
      rw [htrailing] at hnul hturns ⊢
      have hname := hfree name List.mem_cons_self
      have hfree' : ∀ p ∈ next :: names, comma ∉ p := fun p hp =>
        hfree p (List.mem_cons_of_mem name hp)
      have hnul' : 0 ∉ next ++ trailing comma names := fun hmem =>
        hnul (List.mem_append_right name (List.mem_cons_of_mem comma hmem))
      generalize hR : next ++ trailing comma names = tail at hnul hturns hnul' ⊢
      obtain ⟨turns, rfl⟩ := Nat.exists_eq_succ_of_ne_zero (Nat.ne_of_gt (Nat.zero_lt_of_lt hturns))
      have hturns' : tail.length < turns := by
        rw [List.length_append, List.length_cons] at hturns
        omega
      have hdrop : (leading comma kept ++ (name ++ comma :: tail ++ 0 :: junk)).drop
          (leading comma kept).length = name ++ ((comma :: tail) ++ 0 :: junk) := by
        rw [List.drop_left, List.append_assoc]
      have hfound : memchr (leading comma kept ++ (name ++ comma :: tail ++ 0 :: junk)) comma
          (leading comma kept).length (name ++ comma :: tail).length =
          some (some ((leading comma kept).length + name.length)) :=
        memchr_found hdrop hname (by simp)
      rw [stripLoop_turn hdrop hnul (by simp) hfound (by simp), stripped]
      cases hbyName : kexGetMethodByName methods name with
      | some m =>
          have hblock : leading comma kept ++ (name ++ comma :: tail ++ 0 :: junk) =
              leading comma (kept ++ [name]) ++ (tail ++ 0 :: junk) := by
            rw [leading_append_singleton]
            simp
          have hplace : (leading comma kept).length + name.length + 1 =
              (leading comma (kept ++ [name])).length := by
            rw [leading_append_singleton]
            simp
            omega
          subst hR
          obtain ⟨junk', hloop⟩ := ih (kept ++ [name]) junk hfree' hnul' hturns'
          simp only [stripTurn, hbyName, hblock, hplace, hloop, if_pos Option.isSome_some]
          exact ⟨junk', by rw [List.append_assoc kept]; rfl⟩
      | none =>
          have hlen : (name ++ comma :: tail).length - name.length = (tail ++ [0]).length := by
            simp
          obtain ⟨junk, hmoved⟩ := memcpy_tail hcopy (leading comma kept) name tail junk
          simp only [stripTurn, hbyName, hlen, hmoved, Option.bind_some]
          subst hR
          rw [if_neg (by simp)]
          exact ih kept junk hfree' hnul' hturns'

theorem length_stripLoop (hcopy : CopiesDown memcpy) {turns : Nat} {block' : List UInt8}
    (h : stripLoop memcpy methods turns block s = some block') : block'.length = block.length := by
  induction turns generalizing block s with
  | zero => cases h
  | succ turns ih =>
      rw [stripLoop] at h
      obtain ⟨c, -, h⟩ := Option.bind_eq_some_iff.mp h
      by_cases hc : c = 0
      · rw [if_pos hc] at h
        rw [Option.some.inj h]
      · rw [if_neg hc] at h
        obtain ⟨len, -, h⟩ := Option.bind_eq_some_iff.mp h
        obtain ⟨p, hp, h⟩ := Option.bind_eq_some_iff.mp h
        obtain ⟨name, -, h⟩ := Option.bind_eq_some_iff.mp h
        cases hbyName : kexGetMethodByName methods name with
        | some m =>
            cases p with
            | some p =>
                simp only [stripTurn, hbyName] at h
                exact ih h
            | none =>
                simp only [stripTurn, hbyName] at h
                rw [Option.some.inj h]
        | none =>
            cases p with
            | some p =>
                have hplace : s < p + 1 := Nat.lt_succ_of_le (le_of_memchr hp)
                simp only [stripTurn, hbyName, hcopy _ _ _ _ hplace] at h
                obtain ⟨moved, hmoved, h⟩ := Option.bind_eq_some_iff.mp h
                obtain ⟨xs, -, hstore⟩ := Option.bind_eq_some_iff.mp hmoved
                exact (ih h).trans (length_of_store hstore)
            | none =>
                simp only [stripTurn, hbyName] at h
                by_cases hs : 0 < s
                · rw [if_pos hs] at h
                  obtain ⟨cut, hcut, h⟩ := Option.bind_eq_some_iff.mp h
                  exact (ih h).trans (length_of_store hcut)
                · rw [if_neg hs] at h
                  obtain ⟨cut, hcut, h⟩ := Option.bind_eq_some_iff.mp h
                  exact (ih h).trans (length_of_store hcut)

end Loop

/-! ### The preferences -/

theorem textOf_eq {block text junk : List UInt8} (h : block = text ++ 0 :: junk) (hnul : 0 ∉ text)
    (hlen : block.length ≤ 2 ^ 32) : ∃ t, textOf block = some t ∧ t.chars = text := by
  have hmem : 0 ∈ block := by rw [h]; exact List.mem_append_right text List.mem_cons_self
  rw [textOf, dif_pos ⟨hmem, hlen⟩]
  refine ⟨_, rfl, ?_⟩
  show block.takeWhile (· != 0) = text
  have htext : ∀ x ∈ text, (x != 0) = true := fun x hx =>
    bne_iff_ne.mpr fun hzero => hnul (hzero ▸ hx)
  rw [h, List.takeWhile_append_of_pos htext, List.takeWhile_cons_of_neg (by decide),
    List.append_nil]

section Preferring
variable {memcpy : Memcpy} {μ : Type} [Named μ]

/-- What the caller has asked for and the library has. -/
def requested (methods : List μ) (prefs : CText) : List μ :=
  (prefs.chars.splitOn comma).filterMap (kexGetMethodByName methods)

/-- The copy behind the loop: the names that stay, and its length as before. -/
theorem stripLoop_copy (hcopy : CopiesDown memcpy) (methods : List μ) (prefs : CText) :
    ∃ block junk : List UInt8,
      stripLoop memcpy methods (prefs.chars.length + 1) (prefs.chars ++ [0]) 0 = some block ∧
      block = strippedText methods (prefs.chars.splitOn comma) ++ 0 :: junk ∧
      block.length ≤ 2 ^ 32 := by
  obtain ⟨name, names, hsplit, hchars, hfree⟩ := exists_pieces comma prefs.chars
  have hnul : 0 ∉ name ++ trailing comma names := hchars ▸ prefs.free
  have hturns : (name ++ trailing comma names).length < prefs.chars.length + 1 := by
    rw [← hchars]
    exact Nat.lt_succ_self _
  obtain ⟨junk, hloop⟩ := stripLoop_eq hcopy methods [] [] hfree hnul hturns
  rw [← hchars, ← hsplit] at hloop
  have hfits := prefs.fits
  refine ⟨_, junk, hloop, rfl, ?_⟩
  rw [length_stripLoop hcopy hloop]
  simp only [leading, List.flatMap_nil, List.nil_append, List.length_append, List.length_singleton]
  omega

theorem strippedText_free (methods : List μ) (prefs : CText) :
    0 ∉ strippedText methods (prefs.chars.splitOn comma) := by
  obtain ⟨name, names, hsplit, hchars, -⟩ := exists_pieces comma prefs.chars
  have hnul := prefs.free
  rw [hsplit]
  intro hmem
  rcases mem_of_mem_strippedText hmem with hzero | ⟨s, hs, hzero⟩
  · exact absurd hzero (by decide)
  · refine hnul ?_
    rw [hchars, List.mem_append]
    cases hs with
    | head => exact .inl hzero
    | tail _ hs => exact .inr (List.mem_flatMap.mpr ⟨s, hs, List.mem_cons_of_mem comma hzero⟩)

/-- A call ends with the methods of the caller in the order of the caller, all of which the library
has, or there is none of them. -/
theorem newPrefs_requested (hcopy : CopiesDown memcpy) (methods : List μ) (prefs : CText) :
    ∃ r, newPrefs memcpy (some methods) prefs true = some r ∧
      match r with
      | .ok text => Supported (some text) methods ∧
          preferred (some text) methods = requested methods prefs ∧ requested methods prefs ≠ []
      | .error e => e = .methodNotSupported ∧ requested methods prefs = [] := by
  obtain ⟨block, junk, hloop, hblock, hlen⟩ := stripLoop_copy hcopy methods prefs
  rw [newPrefs, if_pos rfl]
  simp only [hloop, Option.bind_some]
  cases htext : strippedText methods (prefs.chars.splitOn comma) with
  | nil =>
      rw [htext] at hblock
      refine ⟨.error .methodNotSupported, ?_, rfl, strippedText_eq_nil.mp htext⟩
      rw [hblock]
      rfl
  | cons c cs =>
      have hnul := strippedText_free methods prefs
      rw [htext] at hnul hblock
      have hne : requested methods prefs ≠ [] := fun hnone =>
        absurd (strippedText_eq_nil.mpr hnone) (by rw [htext]; exact List.cons_ne_nil c cs)
      have hc : c ≠ 0 := fun hc => hnul (hc ▸ List.mem_cons_self)
      have hload : load block 0 = some c := by rw [hblock]; rfl
      obtain ⟨text, htextOf, hchars⟩ := textOf_eq hblock hnul hlen
      have hsplit : text.chars.splitOn comma = stripped methods (prefs.chars.splitOn comma) := by
        obtain ⟨name, names, hpieces, -, hfree⟩ := exists_pieces comma prefs.chars
        rw [hchars, ← htext, splitOn_strippedText (by rw [hpieces]; exact hfree)]
        rw [htext]
        exact List.cons_ne_nil c cs
      rw [hload, Option.bind_some, if_neg hc, htextOf]
      refine ⟨.ok text, rfl, ?_, ?_, hne⟩
      · intro t ht s hs
        obtain rfl := Option.some.inj ht
        rw [hsplit] at hs
        exact supported_of_mem_stripped hs
      · rw [preferred, hsplit, filterMap_stripped, requested]

theorem newPrefs_unlisted (memcpy : Memcpy) (prefs : CText) :
    ∃ r, newPrefs memcpy (none : Option (List Method)) prefs true = some r ∧
      match r with
      | .ok text => text.chars = prefs.chars ∧ prefs.chars ≠ []
      | .error e => e = .methodNotSupported ∧ prefs.chars = [] := by
  have hfits := prefs.fits
  have hlen : (prefs.chars ++ [0]).length ≤ 2 ^ 32 := by
    rw [List.length_append, List.length_singleton]
    omega
  obtain ⟨text, htext, hchars⟩ := textOf_eq rfl prefs.free hlen
  rw [newPrefs, if_pos rfl]
  cases hprefs : prefs.chars with
  | nil => exact ⟨.error .methodNotSupported, rfl, rfl, rfl⟩
  | cons c cs =>
      have hc : c ≠ 0 := fun hc => prefs.free (by rw [hprefs, hc]; exact List.mem_cons_self)
      rw [hprefs] at htext hchars
      refine ⟨.ok text, ?_, hchars, List.cons_ne_nil c cs⟩
      show (if c = 0 then some (.error PrefError.methodNotSupported)
        else (textOf (c :: cs ++ [0])).map Except.ok) = some (Except.ok text)
      rw [if_neg hc, htext]
      rfl

end Preferring

/-- What there is of the request: methods of a table, or any text where there is no table. -/
def Asks (tables : Tables) (methodType : MethodType) (prefs : CText) : Prop :=
  match tables.mlist methodType with
  | some methods => requested methods prefs ≠ []
  | none => prefs.chars ≠ []

/-- The text that is stored names what has been asked for, in the order of the request. -/
def Names (tables : Tables) (methodType : MethodType) (prefs text : CText) : Prop :=
  match tables.mlist methodType with
  | some methods => Supported (some text) methods ∧
      preferred (some text) methods = requested methods prefs
  | none => text.chars = prefs.chars

/-- The results of a call, each of which has one reason. -/
def Takes (tables : Tables) (session : Session) (methodType : MethodType) (prefs : CText)
    (allocated : Bool) : Except PrefError Session → Prop
  | .ok after => (methodType ≠ .other ∧ allocated = true ∧ Asks tables methodType prefs) ∧
      ∃ text, after = session.setPref text methodType ∧ Names tables methodType prefs text
  | .error .inval => methodType = .other
  | .error .alloc => methodType ≠ .other ∧ allocated = false
  | .error .methodNotSupported =>
      methodType ≠ .other ∧ allocated = true ∧ ¬Asks tables methodType prefs

/-- What a call does with a text that asks for methods in some order. -/
theorem method_pref_takes_requested {memcpy : Memcpy} (hcopy : CopiesDown memcpy) (tables : Tables)
    (session : Session) (methodType : MethodType) (prefs : CText) (allocated : Bool) :
    ∃ r, methodPref memcpy tables session methodType prefs allocated = some r ∧
      Takes tables session methodType prefs allocated r := by
  by_cases hkind : methodType = .other
  · exact ⟨.error .inval, by rw [methodPref, if_pos hkind], hkind⟩
  rw [methodPref, if_neg hkind]
  cases allocated with
  | false => exact ⟨.error .alloc, rfl, hkind, rfl⟩
  | true =>
      cases hlist : tables.mlist methodType with
      | some methods =>
          obtain ⟨r, hr, hcase⟩ := newPrefs_requested hcopy methods prefs
          rw [hr]
          cases r with
          | ok text =>
              obtain ⟨hsupported, hpreferred, hne⟩ := hcase
              refine ⟨_, rfl, ⟨hkind, rfl, ?_⟩, text, rfl, ?_⟩
              · rwa [Asks, hlist]
              · rw [Names, hlist]
                exact ⟨hsupported, hpreferred⟩
          | error e =>
              obtain ⟨rfl, hnone⟩ := hcase
              refine ⟨_, rfl, hkind, rfl, ?_⟩
              rw [Asks, hlist]
              exact not_not.mpr hnone
      | none =>
          obtain ⟨r, hr, hcase⟩ := newPrefs_unlisted memcpy prefs
          rw [hr]
          cases r with
          | ok text =>
              obtain ⟨hchars, hne⟩ := hcase
              refine ⟨_, rfl, ⟨hkind, rfl, ?_⟩, text, rfl, ?_⟩
              · rwa [Asks, hlist]
              · rwa [Names, hlist]
          | error e =>
              obtain ⟨rfl, hnone⟩ := hcase
              refine ⟨_, rfl, hkind, rfl, ?_⟩
              rw [Asks, hlist]
              exact not_not.mpr hnone

/-- A caller who wants the second cipher, then one that the library does not have. -/
def secondCipherFirst : CText := ⟨[98, 44, 120, 44, 97], by decide, by decide⟩

def memmove : Memcpy := fun block dst src n =>
  (loadMany block src n).bind fun xs => store block dst xs

theorem memmove_copiesDown : CopiesDown memmove := fun _ _ _ _ _ => rfl

theorem method_pref_takes_requested_second : ∃ text,
    methodPref memmove twoCiphers freshSession .cryptCs secondCipherFirst true =
      some (.ok (freshSession.setPref text .cryptCs)) ∧
    preferred (some text) (common twoCiphers.crypt) = [⟨letterB⟩, ⟨letterA⟩] := by
  obtain ⟨r, hr, hcase⟩ := method_pref_takes_requested memmove_copiesDown twoCiphers freshSession
    .cryptCs secondCipherFirst true
  cases r with
  | ok after =>
      obtain ⟨-, text, rfl, -, hpreferred⟩ := hcase
      exact ⟨text, hr, hpreferred⟩
  | error e =>
      have hok : (methodPref memmove twoCiphers freshSession .cryptCs secondCipherFirst true).map
          Except.isOk = some true := rfl
      rw [hr] at hok
      cases hok

end InfoGlobe.Ssh
