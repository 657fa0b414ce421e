import Mathlib.Data.List.Forall2
import InfoGlobe.Client.WorkingTab

/-!
What becomes of the input of a click. The clicks clear their field whether or not the tab takes the
request, and a busy tab does not take it.
-/

namespace InfoGlobe.UserInput
open StepSystem WorkingTab

/-- The workers of the two tabs, with what they are made of. -/
inductive Request
  | text (message : String) (blinkyEnable : Bool)
  | rawBytes (byteBuffer : List UInt8)
  | button (button : Nat)
  | buttonConfig (button : Nat) (command : String)
  deriving DecidableEq

/-! ### The bytes of a text -/

/-- `[0-9a-fA-F]`. -/
def isHexDigit (c : Char) : Bool :=
  ('0' ≤ c ∧ c ≤ '9') ∨ ('a' ≤ c ∧ c ≤ 'f') ∨ ('A' ≤ c ∧ c ≤ 'F')

def hexDigit (c : Char) : Option Nat :=
  if '0' ≤ c ∧ c ≤ '9' then some (c.toNat - '0'.toNat)
  else if 'a' ≤ c ∧ c ≤ 'f' then some (c.toNat - 'a'.toNat + 10)
  else if 'A' ≤ c ∧ c ≤ 'F' then some (c.toNat - 'A'.toNat + 10)
  else none

/-- `bytes.fromhex` of a text without blanks. -/
def fromHex : List Char → Option (List UInt8)
  | [] => some []
  | [_] => none
  | a :: b :: rest =>
      match hexDigit a, hexDigit b, fromHex rest with
      | some high, some low, some bytes => some (UInt8.ofNat (16 * high + low) :: bytes)
      | _, _, _ => none

/-- A '0' in front of the last digit of an odd number of them. -/
def padOdd (digits : List Char) : List Char :=
  if digits.length % 2 = 1 then digits.dropLast ++ ['0'] ++ digits.drop (digits.length - 1)
  else digits

/-- The text of `send_bytes_button_click` before its conversion. -/
def hexText (inputText : String) : List Char :=
  let inputTextHex := inputText.toList.filter isHexDigit
  let inputTextWithoutSpaces := inputTextHex.filter (· ≠ ' ')
  padOdd inputTextWithoutSpaces

def bytesResult (inputText : String) : Option (List UInt8) := fromHex (hexText inputText)

theorem hexDigit_isSome {c : Char} (h : isHexDigit c = true) : ∃ n, hexDigit c = some n := by
  simp only [isHexDigit, decide_eq_true_eq] at h
  rw [hexDigit]
  by_cases hdigit : '0' ≤ c ∧ c ≤ '9'
  · exact ⟨_, if_pos hdigit⟩
  rw [if_neg hdigit]
  by_cases hlower : 'a' ≤ c ∧ c ≤ 'f'
  · exact ⟨_, if_pos hlower⟩
  rw [if_neg hlower]
  exact ⟨_, if_pos ((h.resolve_left hdigit).resolve_left hlower)⟩

theorem fromHex_isSome : ∀ text : List Char, (∀ c ∈ text, isHexDigit c = true) →
    text.length % 2 = 0 → ∃ bytes, fromHex text = some bytes
  | [], _, _ => ⟨[], rfl⟩
  | [_], _, heven => absurd heven (by simp)
  | a :: b :: rest, hdigits, heven => by
      obtain ⟨high, hhigh⟩ := hexDigit_isSome (hdigits a (by simp))
      obtain ⟨low, hlow⟩ := hexDigit_isSome (hdigits b (by simp))
      have hrest : ∀ c ∈ rest, isHexDigit c = true := fun c hc => hdigits c (by simp [hc])
      rw [List.length_cons, List.length_cons] at heven
      obtain ⟨bytes, hbytes⟩ := fromHex_isSome rest hrest (by omega)
      exact ⟨UInt8.ofNat (16 * high + low) :: bytes, by simp only [fromHex, hhigh, hlow, hbytes]⟩

theorem length_padOdd (digits : List Char) : (padOdd digits).length % 2 = 0 := by
  unfold padOdd
  split
  · simp only [List.length_append, List.length_dropLast, List.length_singleton, List.length_drop]
    omega
  · omega

theorem isHexDigit_of_mem_padOdd {digits : List Char} (h : ∀ c ∈ digits, isHexDigit c = true)
    {c : Char} (hc : c ∈ padOdd digits) : isHexDigit c = true := by
  unfold padOdd at hc
  split at hc
  · rcases List.mem_append.mp hc with hc | hc
    · rcases List.mem_append.mp hc with hc | hc
      · exact h c ((List.dropLast_sublist digits).subset hc)
      · rw [List.mem_singleton.mp hc]
        decide
    · exact h c (List.mem_of_mem_drop hc)
  · exact h c hc

/-- The click does not raise, whatever the text. -/
theorem bytesResult_isSome (inputText : String) :
    ∃ bytes, bytesResult inputText = some bytes := by
  have hdigits : ∀ c ∈ (inputText.toList.filter isHexDigit).filter (· ≠ ' '),
      isHexDigit c = true := by
    intro c hc
    exact (List.mem_filter.mp (List.mem_filter.mp hc).1).2
  exact fromHex_isSome _ (fun c hc => isHexDigit_of_mem_padOdd hdigits hc) (length_padOdd _)

/-! ### The tabs and their widgets -/

/-- What a click takes from the widgets. -/
inductive Input
  | text (entry : String) (blinky : Bool)
  | bytes (entry : String)
  | press (button : Nat) (entry : String) (update : Bool)

/-- The two tabs that send user input, each with its widgets, the requests of the workers that were
started, and the input that the clicks cleared away. -/
structure Gui where
  txData : Tab Request
  textEntryTxData : String
  checkboxOption1 : Bool
  controlPanel : Tab Request
  commandEntry : String
  updateCheckbox : Bool
  started : List Request
  consumed : List Input

def Gui.start : Gui where
  txData := Tab.start
  textEntryTxData := ""
  checkboxOption1 := false
  controlPanel := Tab.start
  commandEntry := ""
  updateCheckbox := false
  started := []
  consumed := []

/-- The requests of the workers that a click has added to a tab. -/
def made (before after : Tab Request) : List Request :=
  (after.workers.drop before.workers.length).map Worker.request

/-- `TXDataTab.send_button_click`. -/
def txSendButtonClick (g : Gui) : Gui :=
  let request := Request.text g.textEntryTxData g.checkboxOption1
  let tab := (Click.sendButton request).effect g.txData
  { g with
    txData := tab
    textEntryTxData := ""
    started := g.started ++ made g.txData tab
    consumed := g.consumed ++ [.text g.textEntryTxData g.checkboxOption1] }

/-- `TXDataTab.send_bytes_button_click`; `bytes.fromhex` could raise before anything happens. -/
def sendBytesButtonClick (g : Gui) : Gui :=
  match bytesResult g.textEntryTxData with
  | none => g
  | some bytes =>
      let tab := (Click.helper (Request.rawBytes bytes)).effect g.txData
      { g with
        txData := tab
        textEntryTxData := ""
        started := g.started ++ made g.txData tab
        consumed := g.consumed ++ [.bytes g.textEntryTxData] }

/-- `InfoGlobeControlPanelTab.send_button_click`. -/
def panelSendButtonClick (g : Gui) (buttonNumber : Nat) : Gui :=
  let configChecked := g.updateCheckbox
  let request :=
    if configChecked then Request.buttonConfig buttonNumber g.commandEntry
    else Request.button buttonNumber
  let tab := (Click.helper request).effect g.controlPanel
  { g with
    controlPanel := tab
    commandEntry := ""
    updateCheckbox := false
    started := g.started ++ made g.controlPanel tab
    consumed := g.consumed ++ [.press buttonNumber g.commandEntry configChecked] }

inductive Action
  | txSendButton
  | sendBytesButton
  | panelSendButton (buttonNumber : Nat)
  | editText (entry : String)
  | editCommand (entry : String)
  | checkBlinky (checked : Bool)
  | checkUpdate (checked : Bool)
  /-- A step of a worker of a tab, or the delivery of its `finished`. -/
  | txWorker (l : Label Request)
  | panelWorker (l : Label Request)

def isClick : Label Request → Bool
  | .click _ => true
  | _ => false

def step (g : Gui) : Action → Option Gui
  | .txSendButton => some (txSendButtonClick g)
  | .sendBytesButton => some (sendBytesButtonClick g)
  | .panelSendButton buttonNumber => some (panelSendButtonClick g buttonNumber)
  | .editText entry => some { g with textEntryTxData := entry }
  | .editCommand entry => some { g with commandEntry := entry }
  | .checkBlinky checked => some { g with checkboxOption1 := checked }
  | .checkUpdate checked => some { g with updateCheckbox := checked }
  | .txWorker l =>
      if isClick l = true then none
      else (WorkingTab.step g.txData l).map fun tab => { g with txData := tab }
  | .panelWorker l =>
      if isClick l = true then none
      else (WorkingTab.step g.controlPanel l).map fun tab => { g with controlPanel := tab }

/-! ### Consumed input and started workers -/

/-- The worker that a click makes of what it takes. -/
def Input.request : Input → Option Request
  | .text entry blinky => some (.text entry blinky)
  | .bytes entry => (bytesResult entry).map .rawBytes
  | .press button entry true => some (.buttonConfig button entry)
  | .press button _ false => some (.button button)

/-- The workers that were started are those of the clicks, one for each and in order. -/
def NothingLost (g : Gui) : Prop := g.started.map some = g.consumed.map Input.request

/-- The worker has all of the input: a press without the update box takes no text. -/
def Carries : Input → Request → Prop
  | .text entry blinky, .text message blinkyEnable => message = entry ∧ blinkyEnable = blinky
  | .bytes entry, .rawBytes byteBuffer => bytesResult entry = some byteBuffer
  | .press button entry true, .buttonConfig button' command => button' = button ∧ command = entry
  | .press button entry false, .button button' => button' = button ∧ entry = ""
  | _, _ => False

/-- Every click has started a worker that carries exactly what it cleared away. -/
def AllCarried (g : Gui) : Prop := List.Forall₂ Carries g.consumed g.started

/-- The tab of a click has no worker. -/
def FindsIdle (g : Gui) : Action → Prop
  | .txSendButton | .sendBytesButton => g.txData.tcpWorkerThread = none
  | .panelSendButton _ => g.controlPanel.tcpWorkerThread = none
  | _ => True

/-- A press without the update box finds no text in the command field. -/
def NoStrayText (g : Gui) : Action → Prop
  | .panelSendButton _ => g.updateCheckbox = false → g.commandEntry = ""
  | _ => True

section Clicks
variable {g h : Gui} {a : Action}

theorem made_of_sendButton (s : Tab Request) (request : Request) :
    made s ((Click.sendButton request).effect s) =
      if s.tcpWorkerThread = none then [request] else [] := by
  simp only [Click.effect]
  split <;> simp [made, Tab.install]

theorem made_of_helper (s : Tab Request) (request : Request) :
    made s ((Click.helper request).effect s) =
      if s.tcpWorkerThread = none then [request] else [] := by
  simp only [Click.effect, makeWorkerThread]
  split <;> simp [made, Tab.install]

/-- A click consumes one input, and starts the worker for it if its tab is idle. Nothing else
consumes input or starts a worker. -/
inductive Outcome (g : Gui) (a : Action) (h : Gui) : Prop
  | click (input : Input) (request : Request) (request_eq : input.request = some request)
      (consumed : h.consumed = g.consumed ++ [input])
      (idle : FindsIdle g a → h.started = g.started ++ [request])
      (busy : ¬FindsIdle g a → h.started = g.started)
      (carries : Carries input request ↔ NoStrayText g a)
  | other (idle : FindsIdle g a) (stray : NoStrayText g a) (consumed : h.consumed = g.consumed)
      (started : h.started = g.started)

theorem outcome_panelSendButton (g : Gui) (buttonNumber : Nat) :
    Outcome g (.panelSendButton buttonNumber) (panelSendButtonClick g buttonNumber) := by
  cases hupdate : g.updateCheckbox with
  | true =>
      refine .click (.press buttonNumber g.commandEntry true)
        (.buttonConfig buttonNumber g.commandEntry) rfl ?_ (fun hidle => ?_) (fun hbusy => ?_) ?_
      · simp [panelSendButtonClick, hupdate]
      · simpa [panelSendButtonClick, hupdate, made_of_helper, FindsIdle] using hidle
      · simpa [panelSendButtonClick, hupdate, made_of_helper, FindsIdle] using hbusy
      · simp [Carries, NoStrayText, hupdate]
  | false =>
      refine .click (.press buttonNumber g.commandEntry false) (.button buttonNumber) rfl ?_
        (fun hidle => ?_) (fun hbusy => ?_) ?_
      · simp [panelSendButtonClick, hupdate]
      · simpa [panelSendButtonClick, hupdate, made_of_helper, FindsIdle] using hidle
      · simpa [panelSendButtonClick, hupdate, made_of_helper, FindsIdle] using hbusy
      · simp [Carries, NoStrayText, hupdate]

theorem outcome_of_step (hstep : step g a = some h) : Outcome g a h := by
  cases a with
  | txSendButton =>
      obtain rfl := Option.some.inj hstep
      refine .click (.text g.textEntryTxData g.checkboxOption1)
        (.text g.textEntryTxData g.checkboxOption1) rfl rfl (fun hidle => ?_) (fun hbusy => ?_) ?_
      · simpa [txSendButtonClick, made_of_sendButton, FindsIdle] using hidle
      · simpa [txSendButtonClick, made_of_sendButton, FindsIdle] using hbusy
      · simp [Carries, NoStrayText]
  | sendBytesButton =>
      obtain rfl := Option.some.inj hstep
      obtain ⟨bytes, hbytes⟩ := bytesResult_isSome g.textEntryTxData
      refine .click (.bytes g.textEntryTxData) (.rawBytes bytes) ?_ ?_ (fun hidle => ?_)
        (fun hbusy => ?_) ?_
      · simp [Input.request, hbytes]
      · simp [sendBytesButtonClick, hbytes]
      · simpa [sendBytesButtonClick, hbytes, made_of_helper, FindsIdle] using hidle
      · simpa [sendBytesButtonClick, hbytes, made_of_helper, FindsIdle] using hbusy
      · simp [Carries, NoStrayText, hbytes]
  | panelSendButton buttonNumber =>
      obtain rfl := Option.some.inj hstep
      exact outcome_panelSendButton g buttonNumber
  | editText _ | editCommand _ | checkBlinky _ | checkUpdate _ =>
      obtain rfl := Option.some.inj hstep
      exact .other trivial trivial rfl rfl
  | txWorker l | panelWorker l =>
      simp only [step, Option.ite_none_left_eq_some, Option.map_eq_some_iff] at hstep
      obtain ⟨_, tab, _, rfl⟩ := hstep
      exact .other trivial trivial rfl rfl

theorem nothingLost_step (g : Gui) (a : Action) (h : Gui) (hg : NothingLost g)
    (hidle : FindsIdle g a) (hstep : step g a = some h) : NothingLost h := by
  unfold NothingLost at hg ⊢
  cases outcome_of_step hstep with
  | click input request request_eq consumed idle _ _ =>
      rw [idle hidle, consumed, List.map_append, List.map_append, hg]
      simp [request_eq]
  | other _ _ consumed started => rw [started, consumed, hg]

/-- A click that a busy tab ignores leaves more input than workers. -/
theorem findsIdle_of_length (hstep : step g a = some h)
    (hg : g.started.length = g.consumed.length) (hh : h.started.length = h.consumed.length) :
    FindsIdle g a := by
  by_contra hbusy
  cases outcome_of_step hstep with
  | click _ _ _ consumed _ busy _ =>
      rw [consumed, busy hbusy, List.length_append, List.length_singleton] at hh
      omega
  | other hidle _ _ _ => exact hbusy hidle

theorem NothingLost.length (hg : NothingLost g) : g.started.length = g.consumed.length := by
  have hlen := congrArg List.length hg
  rwa [List.length_map, List.length_map] at hlen

theorem allCarried_step (g : Gui) (a : Action) (h : Gui) (hg : AllCarried g)
    (hC : FindsIdle g a ∧ NoStrayText g a) (hstep : step g a = some h) : AllCarried h := by
  unfold AllCarried at hg ⊢
  cases outcome_of_step hstep with
  | click input request _ consumed idle _ carries =>
      rw [idle hC.1, consumed]
      exact List.rel_append hg (.cons (carries.mpr hC.2) .nil)
  | other _ _ consumed started => rwa [started, consumed]

theorem carried_of_step (g : Gui) (a : Action) (h : Gui) (hg : AllCarried g)
    (hstep : step g a = some h) (hh : AllCarried h) : FindsIdle g a ∧ NoStrayText g a := by
  have hlen := hg.length_eq
  have hidle := findsIdle_of_length hstep hlen.symm hh.length_eq.symm
  refine ⟨hidle, ?_⟩
  cases outcome_of_step hstep with
  | click input request _ consumed idle _ carries =>
      unfold AllCarried at hh
      rw [idle hidle, consumed] at hh
      have hlast := List.forall₂_drop g.consumed.length hh
      rw [List.drop_left, hlen, List.drop_left] at hlast
      cases hlast with
      | cons hcarries _ => exact carries.mp hcarries
  | other _ hstray _ _ => exact hstray

end Clicks

/-- In exactly the runs whose clicks all find their tab idle, the workers that were started are
those of the clicks; they carry all that was cleared away if no press takes text with it. -/
theorem user_input_iff (actions : List Action) :
    (Always step NothingLost Gui.start actions ↔ EachStep step FindsIdle Gui.start actions) ∧
      (Always step AllCarried Gui.start actions ↔
        EachStep step (fun g a => FindsIdle g a ∧ NoStrayText g a) Gui.start actions) := by
  constructor
  · exact always_iff_eachStep (fun _ h => h) nothingLost_step
      (fun g a h hg hstep hh => findsIdle_of_length hstep hg.length hh.length)
      (show NothingLost Gui.start from rfl) actions
  · exact always_iff_eachStep (fun _ h => h) allCarried_step carried_of_step
      (show AllCarried Gui.start from .nil) actions

/-- The second text is sent while the first worker still connects. -/
theorem second_text_is_lost :
    ¬Always step NothingLost Gui.start
      [.editText "12:00", .txSendButton, .txWorker (.run 0), .editText "13:00", .txSendButton] := by
  intro h
  have hlast := Always.last h rfl
  exact absurd hlast.length (by decide)

end InfoGlobe.UserInput
