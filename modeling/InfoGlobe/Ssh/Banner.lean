import InfoGlobe.Library.CheckedBlock
import InfoGlobe.Library.StringCompare
import InfoGlobe.Ssh.StringBuf
import Mathlib.Data.List.DropRight

/-!
The banner of the server. A server may send lines of text before the one that begins with `SSH-`;
the library reads one byte at a time and gives up wherever no byte has come yet, to go on in a later
call. What it takes for the banner depends on the bytes and on the memory that there is for it, not
on where the pauses are, and nothing behind the line is lost.
-/

namespace InfoGlobe.Ssh
open CheckedBlock StringCompare

/-- What a call of `LIBSSH2_RECV` for one byte ends with. -/
inductive Recv where
  | byte (c : UInt8)
  | again
  | failed
  | closed
  deriving DecidableEq

inductive BannerCode where
  | none
  | eagain
  | socketRecv
  | socketDisconnect
  | bannerRecv
  | alloc
  deriving DecidableEq

def carriageReturn : UInt8 := 13
def lineFeed : UInt8 := 10

/-- The fields of the session: whether a line has been begun, the line and how much of it there is,
and the last whole line; and which of the allocations to come are going to succeed. -/
structure BannerState where
  created : Bool
  banner : List UInt8
  totalSend : Nat
  remote : Option (List UInt8)
  heap : Nat → Bool

/-- What a call returns, unless it is still waiting, and what has not been received yet. -/
structure Received where
  code : Option BannerCode
  state : BannerState
  rest : List Recv

/-- `sizeof(session->banner_TxRx_banner)`. -/
def bannerSize : Nat := 256

/-- The condition of the loop. -/
def moreBanner (banner : List UInt8) (bannerLen : Nat) : Access Bool :=
  if bannerLen < bannerSize then
    if bannerLen = 0 then some true
    else (load banner (bannerLen - 1)).map fun c => c != lineFeed
  else some false

/-- The loop that takes the end of the line away. -/
def stripLine (banner : List UInt8) : Nat → Access Nat
  | 0 => some 0
  | len + 1 =>
      (load banner len).bind fun c =>
        if c = lineFeed ∨ c = carriageReturn then stripLine banner len else some (len + 1)

/-- The allocations behind the next one. -/
def later (heap : Nat → Bool) : Nat → Bool := fun n => heap (n + 1)

/-- The rest of the function, behind the loop. -/
def finishBanner (state : BannerState) (bannerLen : Nat) (rest : List Recv) : Access Received :=
  let heap := state.heap
  (stripLine state.banner bannerLen).bind fun len =>
    let state := { state with created := false, totalSend := 0 }
    if len = 0 then some ⟨some .bannerRecv, state, rest⟩
    else
      let state := { state with remote := none, heap := later state.heap }
      if heap 0 then
        (loadMany state.banner 0 len).map fun text =>
          ⟨some .none, { state with remote := some text }, rest⟩
      else some ⟨some .alloc, state, rest⟩

def receiveLoop (state : BannerState) (bannerLen : Nat) (events : List Recv) : Access Received :=
  (moreBanner state.banner bannerLen).bind fun more =>
    if more then
      match events with
      | [] => some ⟨none, state, []⟩
      | .again :: rest => some ⟨some .eagain, { state with totalSend := bannerLen }, rest⟩
      | .failed :: rest =>
          some ⟨some .socketRecv, { state with created := false, totalSend := 0 }, rest⟩
      | .closed :: rest => some ⟨some .socketDisconnect, state, rest⟩
      | .byte c :: rest =>
          if (c = carriageReturn ∨ c = lineFeed) ∧ bannerLen = 0 then
            receiveLoop state bannerLen rest
          else if c = 0 then
            some ⟨some .bannerRecv, { state with created := false, totalSend := 0 }, rest⟩
          else
            (store state.banner bannerLen [c]).bind fun banner =>
              receiveLoop { state with banner := banner } (bannerLen + 1) rest
    else finishBanner state bannerLen events

def bannerReceive (state : BannerState) (events : List Recv) : Access Received :=
  if state.created then receiveLoop state state.totalSend events
  else receiveLoop { state with created := true } 0 events

/-- `"SSH-"`. -/
def sshPrefix : List UInt8 := [83, 83, 72, 45]

/-- The lines of a call of `session_startup`. -/
def startupBanner : Nat → BannerState → List Recv → Access Received
  | 0, _, _ => none
  | turns + 1, state, events =>
      (bannerReceive state events).bind fun r =>
        if r.code = some .none then
          r.state.remote.bind fun text =>
            if strncmp sshPrefix text 4 = 0 then some r else startupBanner turns r.state r.rest
        else some r

/-- The calls of `session_startup`, until one does not ask for another. -/
def startupCalls : Nat → BannerState → List Recv → Access Received
  | 0, _, _ => none
  | calls + 1, state, events =>
      (startupBanner (events.length + 1) state events).bind fun r =>
        if r.code = some .eagain then startupCalls calls r.state r.rest else some r

/-! ### The banner as it should be -/

inductive Verdict where
  | waiting
  | banner (text : List UInt8) (rest : List Recv)
  | refused (code : BannerCode)
  deriving DecidableEq

/-- A line without the end that it may have. -/
def withoutEnd (line : List UInt8) : List UInt8 :=
  line.rdropWhile fun c => c = lineFeed ∨ c = carriageReturn

/-- The first whole line that begins as a banner does, `line` being what there is of the next one.
Every whole line is allocated. -/
def serverBanner : (Nat → Bool) → List UInt8 → List Recv → Verdict
  | _, _, [] => .waiting
  | heap, line, .again :: rest => serverBanner heap line rest
  | _, _, .failed :: _ => .refused .socketRecv
  | _, _, .closed :: _ => .refused .socketDisconnect
  | heap, line, .byte c :: rest =>
      if (c = carriageReturn ∨ c = lineFeed) ∧ line = [] then serverBanner heap [] rest
      else if c = 0 then .refused .bannerRecv
      else if c = lineFeed ∨ line.length + 1 = bannerSize then
        if heap 0 then
          if sshPrefix <+: withoutEnd (line ++ [c]) then .banner (withoutEnd (line ++ [c])) rest
          else serverBanner (later heap) [] rest
        else .refused .alloc
      else serverBanner heap (line ++ [c]) rest

/-! ### One line -/

/-- A line that has been begun and is not whole yet. -/
structure Begun (line : List UInt8) : Prop where
  fits : line.length < bannerSize
  unended : lineFeed ∉ line
  nul : 0 ∉ line
  start : ∀ c ∈ line.head?, c ≠ carriageReturn ∧ c ≠ lineFeed

theorem begun_nil : Begun [] :=
  ⟨by decide, List.not_mem_nil, List.not_mem_nil, fun c hc => by cases hc⟩

section Lines
variable {banner line old : List UInt8} {c : UInt8}

theorem begun_snoc (h : Begun line) (hstart : ¬((c = carriageReturn ∨ c = lineFeed) ∧ line = []))
    (hc : c ≠ 0) (hmore : ¬(c = lineFeed ∨ line.length + 1 = bannerSize)) :
    Begun (line ++ [c]) := by
  obtain ⟨hline, hfull⟩ := not_or.mp hmore
  have hfits := h.fits
  refine ⟨?_, ?_, ?_, ?_⟩
  · rw [List.length_append, List.length_singleton]
    omega
  · rw [List.mem_append, List.mem_singleton]
    exact not_or.mpr ⟨h.unended, Ne.symm hline⟩
  · rw [List.mem_append, List.mem_singleton]
    exact not_or.mpr ⟨h.nul, Ne.symm hc⟩
  · intro x hx
    cases line with
    | nil =>
        obtain rfl := Option.some.inj hx
        exact not_or.mp fun hend => hstart ⟨hend, rfl⟩
    | cons y line => exact h.start x hx

theorem moreBanner_begun (h : Begun line) : moreBanner (line ++ old) line.length = some true := by
  rw [moreBanner, if_pos h.fits]
  rcases List.eq_nil_or_concat line with rfl | ⟨front, c, rfl⟩
  · rfl
  · have hc : c ≠ lineFeed := fun hc => h.unended (by simp [hc])
    have hload : load (front.concat c ++ old) ((front.concat c).length - 1) = some c := by
      simp [load]
    rw [if_neg (by simp), hload, Option.map_some, bne_iff_ne.mpr hc]

theorem moreBanner_whole (hwhole : c = lineFeed ∨ line.length + 1 = bannerSize) :
    moreBanner (line ++ [c] ++ old) (line ++ [c]).length = some false := by
  rw [moreBanner]
  by_cases hlt : (line ++ [c]).length < bannerSize
  · rw [if_pos hlt]
    rw [List.length_append, List.length_singleton] at hlt
    obtain rfl := hwhole.resolve_right (Nat.ne_of_lt hlt)
    have hload : load (line ++ [lineFeed] ++ old) ((line ++ [lineFeed]).length - 1) =
        some lineFeed := by
      simp [load]
    rw [if_neg (by simp), hload]
    rfl
  · rw [if_neg hlt]

theorem stripLine_eq (line old : List UInt8) :
    stripLine (line ++ old) line.length = some (withoutEnd line).length := by
  induction line using List.reverseRecOn generalizing old with
  | nil => rfl
  | append_singleton line c ih =>
      have hload : load (line ++ [c] ++ old) line.length = some c := by simp [load]
      have hrest := ih ([c] ++ old)
      rw [← List.append_assoc] at hrest
      rw [List.length_append, List.length_singleton, stripLine, hload, Option.bind_some, withoutEnd,
        List.rdropWhile_concat]
      simp only [decide_eq_true_eq]
      split
      · exact hrest
      · rw [List.length_append, List.length_singleton]

/-- What has been begun stays when the end is taken away. -/
theorem withoutEnd_ne_nil (h : Begun line)
    (hstart : ¬((c = carriageReturn ∨ c = lineFeed) ∧ line = [])) :
    withoutEnd (line ++ [c]) ≠ [] := by
  intro hnil
  have hall := List.rdropWhile_eq_nil_iff.mp hnil
  simp only [decide_eq_true_eq] at hall
  cases line with
  | nil => exact hstart ⟨(hall c List.mem_cons_self).symm, rfl⟩
  | cons x line =>
      obtain ⟨hreturn, hfeed⟩ := h.start x rfl
      rcases hall x List.mem_cons_self with hx | hx
      · exact hfeed hx
      · exact hreturn hx

theorem finishBanner_eq {state : BannerState} {rest : List Recv}
    (hbanner : state.banner = line ++ old) (hne : withoutEnd line ≠ []) :
    finishBanner state line.length rest =
      some (if state.heap 0 then
        ⟨some .none, { state with
          created := false, totalSend := 0, remote := some (withoutEnd line)
          heap := later state.heap }, rest⟩
      else
        ⟨some .alloc, { state with
          created := false, totalSend := 0, remote := none, heap := later state.heap }, rest⟩) := by
  obtain ⟨tail, htail⟩ : withoutEnd line <+: line := List.rdropWhile_prefix _ line
  have hdrop : state.banner.drop 0 = withoutEnd line ++ (tail ++ old) := by
    rw [hbanner, List.drop_zero, ← List.append_assoc, htail]
  have hload := loadMany_of_drop hdrop (Nat.zero_le _)
  rw [finishBanner, hbanner, stripLine_eq, Option.bind_some,
    if_neg fun h => hne (List.length_eq_zero_iff.mp h)]
  simp only [← hbanner, hload, Option.map_some]
  cases state.heap 0 <;> rfl

end Lines

/-! ### The calls -/

/-- A line is in the buffer of the session, which keeps its size. -/
def InBuffer (state : BannerState) (line : List UInt8) : Prop :=
  Begun line ∧ line <+: state.banner ∧ state.banner.length = bannerSize

/-- What is left of a line between two calls. -/
def Left (state : BannerState) (line : List UInt8) : Prop :=
  InBuffer state line ∧ if state.created then state.totalSend = line.length else line = []

/-- What a call of `banner_receive` has to do with the line and the bytes that it is given. -/
def Receives (heap : Nat → Bool) (line : List UInt8) (events : List Recv) (r : Received) : Prop :=
  match r.code with
  | none => serverBanner heap line events = .waiting
  | some .eagain => ∃ line', Left r.state line' ∧ r.rest.length < events.length ∧
      serverBanner heap line events = serverBanner r.state.heap line' r.rest
  | some .none => ∃ text, r.state.remote = some text ∧ 0 ∉ text ∧ Left r.state [] ∧
      r.rest.length < events.length ∧
      serverBanner heap line events =
        if sshPrefix <+: text then .banner text r.rest else serverBanner r.state.heap [] r.rest
  | some code => serverBanner heap line events = .refused code

section Calls
variable {state : BannerState} {line : List UInt8}

theorem receiveLoop_whole {len : Nat} (h : moreBanner state.banner len = some false)
    (events : List Recv) : receiveLoop state len events = finishBanner state len events := by
  rw [receiveLoop.eq_def, h]
  rfl

/-- A call that goes on with a later part of the same bytes. -/
theorem Receives.behind {heap : Nat → Bool} {line line' : List UInt8} {event : Recv}
    {events : List Recv} {r : Received} (h : Receives heap line' events r)
    (hnext : serverBanner heap line (event :: events) = serverBanner heap line' events) :
    Receives heap line (event :: events) r := by
  unfold Receives at h ⊢
  rw [hnext]
  split at h
  · exact h
  · obtain ⟨last, hleft, hlen, heq⟩ := h
    exact ⟨last, hleft, Nat.lt_succ_of_lt hlen, heq⟩
  · obtain ⟨text, hremote, hnul, hleft, hlen, heq⟩ := h
    exact ⟨text, hremote, hnul, hleft, Nat.lt_succ_of_lt hlen, heq⟩
  · exact h

/-- The next byte of a line has its place in the buffer. -/
theorem InBuffer.store (h : InBuffer state line) (c : UInt8) : ∃ old,
    store state.banner line.length [c] = some (line ++ [c] ++ old) ∧
      (line ++ [c] ++ old).length = bannerSize := by
  obtain ⟨hbegun, ⟨old, hbanner⟩, hsize⟩ := h
  have hfits := hbegun.fits
  have hlen := congrArg List.length hbanner
  rw [List.length_append, hsize] at hlen
  obtain ⟨o, old, rfl⟩ := List.exists_cons_of_length_pos (show 0 < old.length by omega)
  refine ⟨old, ?_, ?_⟩
  · rw [← hbanner, ← List.singleton_append, ← List.append_assoc]
    exact store_between rfl
  · simp only [List.length_append, List.length_cons, List.length_nil] at hlen ⊢
    omega

theorem serverBanner_byte (heap : Nat → Bool) {c : UInt8} (events : List Recv)
    (hskip : ¬((c = carriageReturn ∨ c = lineFeed) ∧ line = [])) (hzero : c ≠ 0) :
    serverBanner heap line (.byte c :: events) =
      if c = lineFeed ∨ line.length + 1 = bannerSize then
        if heap 0 then
          if sshPrefix <+: withoutEnd (line ++ [c]) then
            .banner (withoutEnd (line ++ [c])) events
          else serverBanner (later heap) [] events
        else .refused .alloc
      else serverBanner heap (line ++ [c]) events := by
  rw [serverBanner, if_neg hskip, if_neg hzero]

/-- The byte that makes a line whole. -/
theorem receiveLoop_last (hbegun : Begun line) {c : UInt8} {old : List UInt8}
    (hbanner : state.banner = line ++ [c] ++ old) (hsize : state.banner.length = bannerSize)
    (hskip : ¬((c = carriageReturn ∨ c = lineFeed) ∧ line = [])) (hzero : c ≠ 0)
    (hwhole : c = lineFeed ∨ line.length + 1 = bannerSize) (events : List Recv) :
    ∃ r, receiveLoop state (line ++ [c]).length events = some r ∧
      Receives state.heap line (.byte c :: events) r := by
  have hstep := serverBanner_byte state.heap events hskip hzero
  have hmore : moreBanner state.banner (line ++ [c]).length = some false :=
    hbanner ▸ moreBanner_whole hwhole
  rw [receiveLoop_whole hmore, finishBanner_eq hbanner (withoutEnd_ne_nil hbegun hskip)]
  refine ⟨_, rfl, ?_⟩
  rw [if_pos hwhole] at hstep
  cases hheap : state.heap 0 with
  | false =>
      rw [hheap] at hstep
      exact hstep
  | true =>
      rw [hheap, if_pos rfl] at hstep
      refine ⟨_, rfl, fun hmem => ?_, ⟨⟨begun_nil, List.nil_prefix, hsize⟩, rfl⟩,
        Nat.lt_succ_self _, hstep⟩
      have hline := (List.rdropWhile_prefix _ _).subset hmem
      rw [List.mem_append, List.mem_singleton] at hline
      exact hline.elim hbegun.nul fun hc => hzero hc.symm

theorem receiveLoop_receives (h : InBuffer state line) (hcreated : state.created = true)
    (events : List Recv) :
    ∃ r, receiveLoop state line.length events = some r ∧ Receives state.heap line events r := by
  induction events generalizing state line with
  | nil =>
      obtain ⟨hbegun, ⟨old, hbanner⟩, -⟩ := h
      rw [receiveLoop.eq_def, ← hbanner, moreBanner_begun hbegun]
      exact ⟨_, rfl, rfl⟩
  | cons event events ih =>
      have hbuffer := h
      obtain ⟨hbegun, ⟨old, hbanner⟩, -⟩ := h
      have hmore : moreBanner state.banner line.length = some true :=
        hbanner ▸ moreBanner_begun hbegun
      rw [receiveLoop.eq_def, hmore, Option.bind_some, if_pos rfl]
      cases event with
      | again =>
          refine ⟨_, rfl, line, ⟨hbuffer, ?_⟩, Nat.lt_succ_self _, rfl⟩
          rw [if_pos hcreated]
      | failed => exact ⟨_, rfl, rfl⟩
      | closed => exact ⟨_, rfl, rfl⟩
      | byte c =>
          have hempty : line.length = 0 ↔ line = [] := List.length_eq_zero_iff
          simp only [hempty]
          by_cases hskip : (c = carriageReturn ∨ c = lineFeed) ∧ line = []
          · rw [if_pos hskip]
            obtain ⟨r, hr, hreceives⟩ := ih hbuffer hcreated
            refine ⟨r, hr, hreceives.behind ?_⟩
            rw [serverBanner, if_pos hskip, hskip.2]
          by_cases hzero : c = 0
          · rw [if_neg hskip, if_pos hzero]
            refine ⟨_, rfl, ?_⟩
            show serverBanner state.heap line (.byte c :: events) = _
            rw [serverBanner, if_neg hskip, if_pos hzero]
          obtain ⟨old, hstore, hsize⟩ := hbuffer.store c
          have hplace : line.length + 1 = (line ++ [c]).length := by
            rw [List.length_append, List.length_singleton]
          rw [if_neg hskip, if_neg hzero, hstore, Option.bind_some, hplace]
          by_cases hwhole : c = lineFeed ∨ line.length + 1 = bannerSize
          · exact receiveLoop_last hbegun rfl hsize hskip hzero hwhole events
          · have hnext : InBuffer { state with banner := line ++ [c] ++ old } (line ++ [c]) :=
              ⟨begun_snoc hbegun hskip hzero hwhole, List.prefix_append _ _, hsize⟩
            obtain ⟨r, hr, hreceives⟩ := ih hnext hcreated
            refine ⟨r, hr, hreceives.behind ?_⟩
            rw [serverBanner_byte state.heap events hskip hzero, if_neg hwhole]

theorem bannerReceive_receives (h : Left state line) (events : List Recv) :
    ∃ r, bannerReceive state events = some r ∧ Receives state.heap line events r := by
  obtain ⟨hbuffer, hleft⟩ := h
  rw [bannerReceive]
  by_cases hcreated : state.created = true
  · rw [if_pos hcreated] at hleft ⊢
    rw [hleft]
    exact receiveLoop_receives hbuffer hcreated events
  · rw [if_neg hcreated] at hleft ⊢
    subst hleft
    have hbegins : InBuffer { state with created := true } [] := hbuffer
    exact receiveLoop_receives hbegins rfl events

theorem strncmp_sshPrefix {text : List UInt8} (h : 0 ∉ text) :
    strncmp sshPrefix text 4 = 0 ↔ sshPrefix <+: text := by
  rw [strncmp_eq_zero_iff (by decide) h, List.prefix_iff_eq_take]
  rfl

/-- What a call of `session_startup` has to do with the line and the bytes that it is given. -/
def Starts (heap : Nat → Bool) (line : List UInt8) (events : List Recv) (r : Received) : Prop :=
  match r.code with
  | none => serverBanner heap line events = .waiting
  | some .eagain => ∃ line', Left r.state line' ∧ r.rest.length < events.length ∧
      serverBanner heap line events = serverBanner r.state.heap line' r.rest
  | some .none => ∃ text, r.state.remote = some text ∧
      serverBanner heap line events = .banner text r.rest
  | some code => serverBanner heap line events = .refused code

theorem startupBanner_starts {turns : Nat} (h : Left state line) {events : List Recv}
    (hturns : events.length < turns) :
    ∃ r, startupBanner turns state events = some r ∧ Starts state.heap line events r := by
  induction turns generalizing state line events with
  | zero => exact absurd hturns (Nat.not_lt_zero _)
  | succ turns ih =>
      obtain ⟨⟨code, after, rest⟩, hr, hreceives⟩ := bannerReceive_receives h events
      rw [startupBanner, hr, Option.bind_some]
      cases code with
      | none => exact ⟨_, rfl, hreceives⟩
      | some code =>
          cases code with
          | none =>
              obtain ⟨text, hremote, hnul, hleft, hlen, heq⟩ := hreceives
              have hremote' : after.remote = some text := hremote
              simp only [hremote', if_true, Option.bind_some, strncmp_sshPrefix hnul]
              by_cases hfront : sshPrefix <+: text
              · rw [if_pos hfront] at heq ⊢
                exact ⟨_, rfl, text, hremote, heq⟩
              · rw [if_neg hfront] at heq ⊢
                obtain ⟨r, hr, hstarts⟩ :=
                  ih hleft (Nat.lt_of_lt_of_le hlen (Nat.le_of_lt_succ hturns))
                refine ⟨r, hr, ?_⟩
                unfold Starts at hstarts ⊢
                rw [heq]
                split at hstarts
                · exact hstarts
                · obtain ⟨line', hleft', hlen', heq'⟩ := hstarts
                  exact ⟨line', hleft', Nat.lt_trans hlen' hlen, heq'⟩
                · exact hstarts
                · exact hstarts
          | eagain => exact ⟨_, rfl, hreceives⟩
          | socketRecv | socketDisconnect | bannerRecv | alloc => exact ⟨_, rfl, hreceives⟩

/-- What has come out of the calls. -/
def Received.verdict (r : Received) : Option Verdict :=
  match r.code with
  | none => some .waiting
  | some .none => r.state.remote.map fun text => .banner text r.rest
  | some code => some (.refused code)

theorem startupCalls_eq {calls : Nat} (h : Left state line) {events : List Recv}
    (hcalls : events.length < calls) :
    ∃ r, startupCalls calls state events = some r ∧
      r.verdict = some (serverBanner state.heap line events) := by
  induction calls generalizing state line events with
  | zero => exact absurd hcalls (Nat.not_lt_zero _)
  | succ calls ih =>
      obtain ⟨⟨code, after, rest⟩, hr, hstarts⟩ :=
        startupBanner_starts h (Nat.lt_succ_self events.length)
      rw [startupCalls, hr, Option.bind_some]
      cases code with
      | none => exact ⟨_, rfl, congrArg some hstarts.symm⟩
      | some code =>
          cases code with
          | none =>
              obtain ⟨text, hremote, heq⟩ := hstarts
              refine ⟨_, rfl, ?_⟩
              rw [heq, Received.verdict, hremote]
              rfl
          | eagain =>
              obtain ⟨line', hleft, hlen, heq⟩ := hstarts
              rw [if_pos rfl, heq]
              exact ih hleft (Nat.lt_of_lt_of_le hlen (Nat.le_of_lt_succ hcalls))
          | socketRecv | socketDisconnect | bannerRecv | alloc =>
              exact ⟨_, rfl, congrArg some hstarts.symm⟩

end Calls

/-! ### The banner that is found -/

/-- The session before the first byte. -/
def BannerState.Idle (state : BannerState) : Prop :=
  state.created = false ∧ state.banner.length = bannerSize

theorem left_of_idle {state : BannerState} (h : state.Idle) : Left state [] := by
  refine ⟨⟨begun_nil, List.nil_prefix, h.2⟩, ?_⟩
  rw [if_neg (by rw [h.1]; exact Bool.false_ne_true)]

/-- What a banner of the server always is. -/
structure Banner (text : List UInt8) : Prop where
  version : sshPrefix <+: text
  fits : text.length ≤ bannerSize
  nul : 0 ∉ text
  feed : lineFeed ∉ text
  ended : text.getLast? ≠ some carriageReturn

theorem banner_withoutEnd {line : List UInt8} {c : UInt8} (h : Begun line) (hc : c ≠ 0)
    (hfront : sshPrefix <+: withoutEnd (line ++ [c])) : Banner (withoutEnd (line ++ [c])) := by
  have hsub : withoutEnd (line ++ [c]) <+: line ++ [c] := List.rdropWhile_prefix _ _
  refine ⟨hfront, ?_, fun hmem => ?_, fun hmem => ?_, fun hlast => ?_⟩
  · have hlen := hsub.length_le
    have hfits := h.fits
    rw [List.length_append, List.length_singleton] at hlen
    omega
  · have hline := hsub.subset hmem
    rw [List.mem_append, List.mem_singleton] at hline
    exact hline.elim h.nul fun hzero => hc hzero.symm
  · by_cases hfeed : c = lineFeed
    · rw [withoutEnd, List.rdropWhile_concat_pos _ _ _ (by simp [hfeed])] at hmem
      exact h.unended ((List.rdropWhile_prefix _ _).subset hmem)
    · have hline := hsub.subset hmem
      rw [List.mem_append, List.mem_singleton] at hline
      exact hline.elim h.unended fun hend => hfeed hend.symm
  · have hne : withoutEnd (line ++ [c]) ≠ [] := fun hnil => by
      rw [hnil] at hlast
      cases hlast
    have hkept := List.rdropWhile_last_not _ _ hne
    rw [List.getLast?_eq_some_getLast hne, Option.some.injEq] at hlast
    exact hkept (decide_eq_true (.inr hlast))

theorem banner_of_found {heap : Nat → Bool} {line text : List UInt8} {events rest : List Recv}
    (h : Begun line) (hfound : serverBanner heap line events = .banner text rest) :
    Banner text ∧ rest <:+ events := by
  induction events generalizing heap line with
  | nil => cases hfound
  | cons event events ih =>
      have hlater : ∀ {heap' line'}, Begun line' →
          serverBanner heap' line' events = .banner text rest →
          Banner text ∧ rest <:+ event :: events := fun hbegun heq =>
        (ih hbegun heq).imp_right fun hsuffix => hsuffix.trans (List.suffix_cons _ _)
      cases event with
      | again => exact hlater h hfound
      | failed | closed => cases hfound
      | byte c =>
          rw [serverBanner] at hfound
          by_cases hskip : (c = carriageReturn ∨ c = lineFeed) ∧ line = []
          · rw [if_pos hskip] at hfound
            exact hlater begun_nil hfound
          by_cases hzero : c = 0
          · rw [if_neg hskip, if_pos hzero] at hfound
            cases hfound
          rw [if_neg hskip, if_neg hzero] at hfound
          by_cases hwhole : c = lineFeed ∨ line.length + 1 = bannerSize
          · rw [if_pos hwhole] at hfound
            cases hheap : heap 0 with
            | false =>
                rw [hheap] at hfound
                cases hfound
            | true =>
                rw [hheap, if_pos rfl] at hfound
                by_cases hfront : sshPrefix <+: withoutEnd (line ++ [c])
                · rw [if_pos hfront] at hfound
                  injection hfound with htext hrest
                  rw [← htext, ← hrest]
                  exact ⟨banner_withoutEnd h hzero hfront, List.suffix_cons _ _⟩
                · rw [if_neg hfront] at hfound
                  exact hlater begun_nil hfound
          · rw [if_neg hwhole] at hfound
            exact hlater (begun_snoc h hskip hzero hwhole) hfound

/-- Some bytes have come, with any pauses in front of each. -/
inductive Carries : List UInt8 → List Recv → List Recv → Prop where
  | done (rest : List Recv) : Carries [] rest rest
  | pause {c : UInt8} {bytes : List UInt8} {events rest : List Recv}
      (h : Carries (c :: bytes) events rest) : Carries (c :: bytes) (.again :: events) rest
  | byte (c : UInt8) {bytes : List UInt8} {events rest : List Recv}
      (h : Carries bytes events rest) : Carries (c :: bytes) (.byte c :: events) rest

/-- A line of text without its end, which has room for both. -/
structure TextLine (line : List UInt8) : Prop where
  fits : line.length + 2 ≤ bannerSize
  free : ∀ c ∈ line, c ≠ 0 ∧ c ≠ carriageReturn ∧ c ≠ lineFeed

def crlf : List UInt8 := [carriageReturn, lineFeed]

section Found
variable {heap : Nat → Bool} {line : List UInt8} {events rest : List Recv}

theorem carries_cons {c : UInt8} {bytes : List UInt8} (h : Carries (c :: bytes) events rest)
    (heap : Nat → Bool) (line : List UInt8) : ∃ events', Carries bytes events' rest ∧
      serverBanner heap line events = serverBanner heap line (.byte c :: events') := by
  generalize hbytes : c :: bytes = all at h
  induction h with
  | done rest => cases hbytes
  | pause h ih => exact ih hbytes
  | byte d h ih =>
      obtain ⟨rfl, rfl⟩ := List.cons.inj hbytes
      exact ⟨_, h, rfl⟩

/-- The characters of a line are added to it. -/
theorem carries_chars {chars bytes : List UInt8} (heap : Nat → Bool) (front : List UInt8)
    (hfits : front.length + chars.length + 2 ≤ bannerSize)
    (hfree : ∀ c ∈ chars, c ≠ 0 ∧ c ≠ carriageReturn ∧ c ≠ lineFeed)
    (h : Carries (chars ++ bytes) events rest) : ∃ events', Carries bytes events' rest ∧
      serverBanner heap front events = serverBanner heap (front ++ chars) events' := by
  induction chars generalizing front events with
  | nil => exact ⟨events, h, by rw [List.append_nil]⟩
  | cons c chars ih =>
      obtain ⟨hzero, hreturn, hfeed⟩ := hfree c List.mem_cons_self
      obtain ⟨events', hcarries, heq⟩ := carries_cons h heap front
      rw [List.length_cons] at hfits
      have hmore : ¬(c = lineFeed ∨ front.length + 1 = bannerSize) :=
        not_or.mpr ⟨hfeed, by omega⟩
      rw [serverBanner, if_neg fun hskip => hskip.1.elim hreturn hfeed, if_neg hzero,
        if_neg hmore] at heq
      obtain ⟨events'', hcarries', heq'⟩ := ih (front ++ [c])
        (by rw [List.length_append, List.length_singleton]; omega)
        (fun d hd => hfree d (List.mem_cons_of_mem c hd)) hcarries
      refine ⟨events'', hcarries', ?_⟩
      rw [heq, heq', List.append_assoc]
      rfl

theorem withoutEnd_crlf (h : TextLine line) : withoutEnd (line ++ [carriageReturn] ++ [lineFeed]) =
    line := by
  rw [withoutEnd, List.rdropWhile_concat_pos _ _ _ (by decide),
    List.rdropWhile_concat_pos _ _ _ (by decide), List.rdropWhile_eq_self_iff]
  intro hne
  have hlast := h.free _ (List.getLast_mem hne)
  simpa using ⟨hlast.2.2, hlast.2.1⟩

/-- A whole line, and what comes of it where it can be allocated. An empty one is passed over. -/
theorem carries_line {bytes : List UInt8} (hheap : heap 0 = true) (hline : TextLine line)
    (h : Carries (line ++ crlf ++ bytes) events rest) : ∃ events', Carries bytes events' rest ∧
      serverBanner heap [] events = if sshPrefix <+: line then .banner line events'
        else serverBanner (if line = [] then heap else later heap) [] events' := by
  rw [List.append_assoc] at h
  obtain ⟨events', hcarries, heq⟩ := carries_chars heap [] (by simpa using hline.fits) hline.free h
  obtain ⟨events', hcarries, hreturn⟩ := carries_cons hcarries heap line
  rw [List.nil_append, hreturn] at heq
  rw [heq]
  by_cases hempty : line = []
  · subst hempty
    obtain ⟨events', hcarries, hfeed⟩ := carries_cons hcarries heap []
    refine ⟨events', hcarries, ?_⟩
    rw [serverBanner, if_pos ⟨.inl rfl, rfl⟩, hfeed, serverBanner, if_pos ⟨.inr rfl, rfl⟩,
      if_neg (by decide), if_pos rfl]
  · obtain ⟨events', hcarries, hfeed⟩ := carries_cons hcarries heap (line ++ [carriageReturn])
    have hfits := hline.fits
    refine ⟨events', hcarries, ?_⟩
    rw [serverBanner, if_neg fun hskip => hempty hskip.2, if_neg (by decide),
      if_neg (not_or.mpr ⟨by decide, by omega⟩), hfeed, serverBanner,
      if_neg fun hskip => List.append_ne_nil_of_right_ne_nil line (List.cons_ne_nil _ _) hskip.2,
      if_neg (by decide), if_pos (.inl rfl), if_pos hheap, withoutEnd_crlf hline, if_neg hempty]

theorem carries_lines {lines : List (List UInt8)} {text : List UInt8}
    (hheap : ∀ n, heap n = true) (hlines : ∀ l ∈ lines, TextLine l ∧ ¬sshPrefix <+: l)
    (htext : TextLine text) (hfront : sshPrefix <+: text)
    (h : Carries (lines.flatMap (· ++ crlf) ++ (text ++ crlf)) events rest) :
    serverBanner heap [] events = .banner text rest := by
  induction lines generalizing heap events with
  | nil =>
      have hlast : Carries (text ++ crlf ++ []) events rest := by rwa [List.append_nil]
      obtain ⟨events', hcarries, heq⟩ := carries_line (hheap 0) htext hlast
      cases hcarries
      rw [heq, if_pos hfront]
  | cons line lines ih =>
      obtain ⟨hline, hother⟩ := hlines line List.mem_cons_self
      rw [List.flatMap_cons, List.append_assoc] at h
      obtain ⟨events', hcarries, heq⟩ := carries_line (hheap 0) hline h
      rw [heq, if_neg hother]
      refine ih (fun n => ?_) (fun l hl => hlines l (List.mem_cons_of_mem line hl)) hcarries
      by_cases hempty : line = []
      · rw [if_pos hempty]
        exact hheap n
      · rw [if_neg hempty]
        exact hheap (n + 1)

end Found

/-- Whatever the server sends and however it comes in, the calls end, they stay within the buffer,
and what they take for the banner is what the bytes say, where it can be allocated; a banner that is
taken has the form of one, and what has come in behind it is all still there. -/
theorem banner_read_off_bytes {state : BannerState} (h : state.Idle) (events : List Recv) :
    ∃ r, startupCalls (events.length + 1) state events = some r ∧
      r.verdict = some (serverBanner state.heap [] events) ∧
      ∀ text rest, r.verdict = some (.banner text rest) → Banner text ∧ rest <:+ events := by
  obtain ⟨r, hr, hverdict⟩ := startupCalls_eq (left_of_idle h) (Nat.lt_succ_self events.length)
  refine ⟨r, hr, hverdict, fun text rest hfound => ?_⟩
  exact banner_of_found begun_nil (Option.some.inj (hverdict.symm.trans hfound))

/-- `SSH-2.0-x`, behind a line `hi`, in two parts. -/
def greeting : List Recv :=
  .again :: ([104, 105, 13, 10, 83, 83].map .byte ++ .again :: ([72, 45, 50, 46, 48, 45, 120, 13,
    10, 0, 0, 1].map .byte))

/-- Before the first byte, with enough memory. -/
def idleState : BannerState := ⟨false, List.replicate 256 0, 0, none, fun _ => true⟩

theorem idleState_idle : idleState.Idle := ⟨rfl, List.length_replicate⟩

theorem banner_read_off_bytes_greeting : ∃ r,
    startupCalls (greeting.length + 1) idleState greeting = some r ∧
      Banner [83, 83, 72, 45, 50, 46, 48, 45, 120] := by
  obtain ⟨r, hr, hverdict, hbanner⟩ := banner_read_off_bytes idleState_idle greeting
  exact ⟨r, hr, (hbanner _ [.byte 0, .byte 0, .byte 1] hverdict).1⟩

/-- The first line that begins as a banner does is taken, behind any number of lines of text and
with any pauses, and nothing behind it. -/
theorem banner_found {state : BannerState} (h : state.Idle) (hheap : ∀ n, state.heap n = true)
    {lines : List (List UInt8)} {text : List UInt8} {events rest : List Recv}
    (hlines : ∀ l ∈ lines, TextLine l ∧ ¬sshPrefix <+: l) (htext : TextLine text)
    (hfront : sshPrefix <+: text)
    (hcarries : Carries (lines.flatMap (· ++ crlf) ++ (text ++ crlf)) events rest) :
    ∃ r, startupCalls (events.length + 1) state events = some r ∧
      r.verdict = some (.banner text rest) := by
  obtain ⟨r, hr, hverdict⟩ := startupCalls_eq (left_of_idle h) (Nat.lt_succ_self events.length)
  refine ⟨r, hr, hverdict.trans (congrArg some ?_)⟩
  exact carries_lines hheap hlines htext hfront hcarries

theorem greeting_carries : Carries ([[104, 105]].flatMap (· ++ crlf) ++
    ([83, 83, 72, 45, 50, 46, 48, 45, 120] ++ crlf)) greeting [.byte 0, .byte 0, .byte 1] := by
  repeat' first
    | exact .done _
    | apply Carries.byte
    | apply Carries.pause

theorem banner_found_greeting : ∃ r,
    startupCalls (greeting.length + 1) idleState greeting = some r ∧
      r.verdict = some (.banner [83, 83, 72, 45, 50, 46, 48, 45, 120]
        [.byte 0, .byte 0, .byte 1]) := by
  refine banner_found idleState_idle (fun _ => rfl) (fun l hl => ?_)
    ⟨by decide, by simp [carriageReturn, lineFeed]⟩ (by decide) greeting_carries
  obtain rfl := List.mem_singleton.mp hl
  exact ⟨⟨by decide, by simp [carriageReturn, lineFeed]⟩, by decide⟩

end InfoGlobe.Ssh
