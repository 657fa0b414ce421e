import InfoGlobe.Client.TcpWorker
import InfoGlobe.Firmware.Animations

/-!
The two encoders of a display text: the text worker of the client and `string_with_blink_shift` of
the firmware. Both end in positions of the transmitted bytes, which the client counts in characters.
-/

namespace InfoGlobe.TextEncoders
open Animations TcpWorker

def IsAscii (text : String) : Prop := ∀ c ∈ text.toList, c.val ≤ 0x7F

/-- The frame of the firmware for the `n` bytes of the text, with shift index `n`, and blink index
`n + 1` when blinking is on. -/
def firmwareFrame (text : String) (blinkyEnable : Bool) : MsgBuffer :=
  let strBuff := encode text
  let n := strBuff.length
  stringWithBlinkShift strBuff n (UInt8.ofNat (if blinkyEnable then n + 1 else 0)) (UInt8.ofNat n)

/-- A text has at least as many bytes as characters, and as many only if it is all ASCII. -/
theorem length_encode (cs : List Char) :
    cs.length ≤ (cs.flatMap String.utf8EncodeChar).length ∧
      (cs.length = (cs.flatMap String.utf8EncodeChar).length ↔ ∀ c ∈ cs, c.val ≤ 0x7F) := by
  induction cs with
  | nil => simp
  | cons c cs ih =>
      obtain ⟨hle, hiff⟩ := ih
      have hpos := c.utf8Size_pos
      rw [List.flatMap_cons, List.length_append, String.length_utf8EncodeChar, List.length_cons,
        List.forall_mem_cons, ← Char.utf8Size_eq_one_iff, ← hiff]
      omega

theorem length_eq_encode_iff (text : String) :
    text.length = (encode text).length ↔ IsAscii text := by
  rw [← String.length_toList]
  exact (length_encode text.toList).2

theorem length_le_encode (text : String) : text.length ≤ (encode text).length := by
  rw [← String.length_toList]
  exact (length_encode text.toList).1

/-- All the bytes of the frame are sent. -/
theorem firmwareFrame_eq (text : String) (blinkyEnable : Bool) :
    firmwareFrame text blinkyEnable =
      [0x05, 0x00] ++ encode text ++ [0x00] ++
        [UInt8.ofNat (if blinkyEnable then (encode text).length + 1 else 0),
          UInt8.ofNat (encode text).length] := by
  simp only [firmwareFrame, stringWithBlinkShift, sendStringToQueue, List.take_length]
  rw [List.take_of_length_le (by simp)]
  simp

/-- The client sends the frame of the firmware for exactly the texts that are all ASCII. -/
theorem textPacket_eq_frame_iff (text : String) (blinkyEnable : Bool)
    (hlen : (encode text).length ≤ 254) :
    textPacket text blinkyEnable = some (firmwareFrame text blinkyEnable) ↔ IsAscii text := by
  have hle := length_le_encode text
  have hbytes : (if blinkyEnable then text.length + 1 else 0) < 256 ∧ text.length < 256 := by
    refine ⟨?_, by omega⟩
    split <;> omega
  rw [← length_eq_encode_iff, textPacket, if_pos hbytes, firmwareFrame_eq, Option.some.injEq,
    List.append_right_inj]
  constructor
  · intro h
    -- the shift index is the last byte, and neither count wraps
    have hshift : UInt8.ofNat text.length = UInt8.ofNat (encode text).length := by
      simpa using (List.cons.inj h).2
    have hnat := congrArg UInt8.toNat hshift
    simp only [UInt8.toNat_ofNat'] at hnat
    omega
  · intro h
    rw [h]

/-- "°" takes two bytes, and the client shifts by one position less than the firmware. -/
theorem degree_sign_disagrees :
    ¬∀ (text : String) (blinkyEnable : Bool), (encode text).length ≤ 254 →
      textPacket text blinkyEnable = some (firmwareFrame text blinkyEnable) := by
  intro h
  exact absurd (h "°" false (by decide)) (by decide)

theorem textPacket_eq_frame_hello :
    textPacket "Hello" true = some (firmwareFrame "Hello" true) :=
  (textPacket_eq_frame_iff "Hello" true (by decide)).mpr (by simp [IsAscii])

end InfoGlobe.TextEncoders
