import Mathlib.Data.Nat.Digits.Defs
import InfoGlobe.Firmware.Animations
import InfoGlobe.Firmware.IrCounters
import InfoGlobe.Firmware.TcpServerTask

/-!
Everything that places an item on the display queue, and whether the item fits into the `message[]`
of the IR task. Every text the firmware itself makes fits for all times, counts and addresses; the
message port forwards whatever chunk it receives.
-/

namespace InfoGlobe.DisplaySources
open FlatMemory StepSystem Animations

/-- A decimal text of `%d` for the bytes of an address. -/
def decimal (b : UInt8) : List UInt8 := asciiBytes b.toNat.repr

/-- What `lookup_ip` leaves in the address buffer: a dotted quad, or nothing. -/
def ipText : Option (UInt8 × UInt8 × UInt8 × UInt8) → List UInt8
  | none => []
  | some (a, b, c, d) =>
      decimal a ++ asciiBytes "." ++ decimal b ++ asciiBytes "." ++ decimal c ++ asciiBytes "." ++
        decimal d

/-- The producers of `display_queue`, each with what its items depend on. -/
inductive Source
  /-- A chunk that `recv` delivers to the message port, over any earlier buffer contents. -/
  | messagePort (rxBuffer : Nat → UInt8) (chunk : List UInt8)
      (h : 1 ≤ chunk.length ∧ chunk.length ≤ TcpServerTask.rxBufferLen - 1)
  | connecting
  | connected
  | ipAddress (ip : Option (UInt8 × UInt8 × UInt8 × UInt8))
  | boot
  | clock (ticks : TickMacros) (s : ClockState) (timeinfo : Tm) (now : UInt32)
  | otaStart
  | otaProgress (elapsed : UInt32)
  | reboot

def connectingFrame : MsgBuffer :=
  let connectMsg := asciiBytes "Connecting..."
  sendStringWBytesToQueue connectMsg connectMsg.length 0x00 0x00

def connectedFrame : MsgBuffer :=
  let text := asciiBytes "Connected!"
  sendStringToQueue ([0x05, 0x00] ++ text ++ [0x00, 0x00, 11]) (text.length + 5)

def Source.items : Source → List MsgBuffer
  | .messagePort rxBuffer chunk _ =>
      [readAt (TcpServerTask.recvChunk rxBuffer chunk) 0 chunk.length]
  | .connecting => [connectingFrame]
  | .connected => [connectedFrame]
  | .ipAddress ip => [singleStringRotate (ipText ip) (ipText ip).length]
  | .boot => runBootAnimation
  | .clock ticks s timeinfo now => (runAnimationTime1 ticks s timeinfo now).2.toList
  | .otaStart => [otaStartFrame]
  | .otaProgress elapsed => [otaProgressFrame elapsed]
  | .reboot => systemRebootFrames

/-- A chunk of the message port is no longer than the message of the IR task. -/
def ChunkFits : Source → Prop
  | .messagePort _ chunk _ => chunk.length ≤ maxMessageLen
  | _ => True

/-! ### The lengths of the firmware's own texts -/

theorem length_repr_le {n k : Nat} (hk : 0 < k) (h : n < 10 ^ k) :
    (asciiBytes n.repr).length ≤ k := by
  rw [length_asciiBytes]
  exact Nat.repr_length n k hk h

theorem length_decimal_le (b : UInt8) : (decimal b).length ≤ 3 :=
  length_repr_le (by decide) (Nat.lt_trans b.toNat_lt (by decide))

theorem length_ipText_le (ip : Option (UInt8 × UInt8 × UInt8 × UInt8)) :
    (ipText ip).length ≤ 15 := by
  cases ip with
  | none => exact Nat.zero_le _
  | some ip =>
      obtain ⟨a, b, c, d⟩ := ip
      have ha := length_decimal_le a
      have hb := length_decimal_le b
      have hc := length_decimal_le c
      have hd := length_decimal_le d
      have hdot : (asciiBytes ".").length = 1 := rfl
      simp only [ipText, List.length_append, hdot]
      omega

theorem length_otaProgressFrame_le (elapsed : UInt32) :
    (otaProgressFrame elapsed).length ≤ 27 := by
  have htime : (asciiBytes (elapsed.toNat / 1000).repr).length ≤ 7 := by
    apply length_repr_le (by decide)
    have := elapsed.toNat_lt
    omega
  have hhead : (asciiBytes "Updating... (").length = 13 := rfl
  have htail : (asciiBytes "s)").length = 2 := rfl
  apply Nat.le_trans (length_stringWithBlinkShift_le _ _ _ _)
  simp only [List.length_append, hhead, htail]
  omega

/-- Every item fits, unless it is a chunk of the message port that does not. -/
theorem items_fit_iff (src : Source) :
    (∀ item ∈ src.items, item.length ≤ maxMessageLen) ↔ ChunkFits src := by
  cases src with
  | messagePort rxBuffer chunk h =>
      simp [Source.items, ChunkFits]
  | connecting | connected | boot | otaStart | reboot =>
      refine iff_of_true ?_ trivial
      decide
  | ipAddress ip =>
      refine iff_of_true ?_ trivial
      intro item hitem
      obtain rfl := List.mem_singleton.mp hitem
      have hframe := length_singleStringRotate_le (ipText ip) (ipText ip).length
      have htext := length_ipText_le ip
      unfold maxMessageLen
      omega
  | clock ticks s timeinfo now =>
      refine iff_of_true ?_ trivial
      intro item hitem
      exact Nat.le_trans (length_runAnimationTime1_le (Option.mem_toList.mp hitem)) (by decide)
  | otaProgress elapsed =>
      refine iff_of_true ?_ trivial
      intro item hitem
      obtain rfl := List.mem_singleton.mp hitem
      exact Nat.le_trans (length_otaProgressFrame_le elapsed) (by decide)

/-- All items fit and the IR task never writes behind `message[]`, whatever it is sent, exactly
when no chunk of the message port is longer than the array. -/
theorem display_items_fit_iff (srcs : List Source) :
    ((∀ src ∈ srcs, ∀ item ∈ src.items, item.length ≤ maxMessageLen) ∧
        ∀ memory ls, (∀ b, .enqueue b ∈ ls → ∃ src ∈ srcs, b ∈ src.items) →
          Always IrLedTask.step (IrLedTask.Untouched memory) (IrLedTask.boot memory) ls) ↔
      ∀ src ∈ srcs, ChunkFits src := by
  constructor
  · rintro ⟨hitems, _⟩ src hsrc
    exact (items_fit_iff src).mp (hitems src hsrc)
  · intro hfits
    have hitems : ∀ src ∈ srcs, ∀ item ∈ src.items, item.length ≤ maxMessageLen :=
      fun src hsrc => (items_fit_iff src).mpr (hfits src hsrc)
    refine ⟨hitems, ?_⟩
    intro memory ls hproduced
    apply IrLedTask.always_untouched
    rintro l hl b rfl
    obtain ⟨src, hsrc, hb⟩ := hproduced b hl
    exact hitems src hsrc b hb

/-- A chunk of 33 bytes reaches the queue as it is, and its last byte is stored behind the array. -/
theorem long_chunk_overruns :
    (∃ item ∈ (Source.messagePort (fun _ => 0) (List.replicate 33 0x41) (by decide)).items,
        item = List.replicate 33 0x41 ∧ maxMessageLen < item.length) ∧
      ¬Always IrLedTask.step (IrLedTask.Untouched fun _ => 0) (IrLedTask.boot fun _ => 0)
        (IrLedTask.sessionRun (List.replicate 33 0x41)) := by
  refine ⟨⟨List.replicate 33 0x41, by decide +kernel, rfl, by decide⟩, fun h => ?_⟩
  have hrun : ((run IrLedTask.step (IrLedTask.boot fun _ => 0)
      (IrLedTask.sessionRun (List.replicate 33 0x41))).map fun s => s.message 32) = some 0x41 := by
    decide +kernel
  obtain ⟨s, hs, hbyte⟩ := Option.map_eq_some_iff.mp hrun
  exact absurd ((h.last hs) 32 (by decide)) (by rw [hbyte]; decide)

end InfoGlobe.DisplaySources
