import Mathlib.Data.List.Basic

/-!
The buffers that travel over the display queue, and the two helpers that build them. A heap buffer
is the list of its bytes: every producer allocates exactly the `size` it then passes on.
-/

namespace InfoGlobe

/-- `msg_buffer_t`: the `size` of the source is the length of the block. -/
abbrev MsgBuffer := List UInt8

/-- The slots `app_main` creates `display_queue` with. -/
def displayQueueLen : Nat := 10

/-- The size of `message[]` in the IR task. -/
def maxMessageLen : Nat := 32

/-- `char` literals of the source as the bytes of their encoding. -/
def asciiBytes (s : String) : List UInt8 := s.toList.map fun c => UInt8.ofNat c.toNat

@[simp] theorem length_asciiBytes (s : String) : (asciiBytes s).length = s.toList.length := by
  simp [asciiBytes]

/-- `xQueueSend` when there is a free slot. -/
def xQueueSend (q : List MsgBuffer) (b : MsgBuffer) : Option (List MsgBuffer) :=
  if q.length < displayQueueLen then some (q ++ [b]) else none

/-- The buffer `send_string_to_queue` allocates, fills and pushes. -/
def sendStringToQueue (strMsg : List UInt8) (strLen : Nat) : MsgBuffer := strMsg.take strLen

/-- The buffer of `send_string_w_bytes_to_queue`, with its header and tail bytes. -/
def sendStringWBytesToQueue (strMsg : List UInt8) (strLen : Nat) (headerByte tailByte : UInt8) :
    MsgBuffer :=
  headerByte :: (strMsg.take strLen ++ [tailByte])

theorem xQueueSend_eq_some {q q' : List MsgBuffer} {b : MsgBuffer} :
    xQueueSend q b = some q' ↔ q.length < displayQueueLen ∧ q' = q ++ [b] := by
  unfold xQueueSend
  simp only [Option.ite_none_right_eq_some, Option.some.injEq]
  exact and_congr_right fun _ => eq_comm

theorem length_sendStringToQueue_le (strMsg : List UInt8) (strLen : Nat) :
    (sendStringToQueue strMsg strLen).length ≤ strLen :=
  List.length_take_le strLen strMsg

end InfoGlobe
