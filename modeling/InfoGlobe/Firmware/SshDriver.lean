import InfoGlobe.Library.FlatMemory

/-!
The loop of `read_channel`: what one `libssh2_channel_read` does to the buffer that the answer of a
command is gathered in. A result below zero ends the loop before the would-block test is reached.
-/

namespace InfoGlobe.SshDriver
open FlatMemory

def eagain : Int := -37

/-- The local `buffer` that every read fills. -/
def chunkSize : Nat := 128

inductive ReadResult
  /-- No bytes at all is the result 0. -/
  | data (bytes : List UInt8)
  | error (rc : Int)
  deriving DecidableEq

/-- What `libssh2_channel_read` can return. -/
def ReadResult.Possible : ReadResult → Prop
  | .data bytes => bytes.length ≤ chunkSize
  | .error rc => rc < 0

instance : ∀ r : ReadResult, Decidable r.Possible
  | .data bytes => inferInstanceAs (Decidable (bytes.length ≤ chunkSize))
  | .error rc => inferInstanceAs (Decidable (rc < 0))

structure Reading where
  inputBuffer : Nat → UInt8
  bytecount : Int
  bufferIndex : Int

def Reading.initial (inputBuffer : Nat → UInt8) : Reading where
  inputBuffer := inputBuffer
  bytecount := 0
  bufferIndex := 0

inductive ReadOutcome
  | again (s : Reading)
  | return (inputBuffer : Nat → UInt8) (bytecount : Int)

/-- How much of a chunk still fits in front of the terminator. Buffers above `INT_MAX - 127` bytes,
for which the sum of C overflows, are left out. -/
def bytesToCopy (bufferSize : Int) (s : Reading) (bytes : List UInt8) : Int :=
  if s.bufferIndex + bytes.length ≥ bufferSize then bufferSize - s.bufferIndex - 1
  else bytes.length

/-- One turn of the loop of `read_channel`. -/
def readTurn (bufferSize : Int) (s : Reading) : ReadResult → ReadOutcome
  | .data [] =>
      .return
        (if s.bufferIndex < bufferSize then writeAt s.inputBuffer s.bufferIndex.toNat [0]
          else s.inputBuffer)
        s.bytecount
  | .data bytes =>
      let n := bytesToCopy bufferSize s bytes
      .again
        { inputBuffer := writeAt s.inputBuffer s.bufferIndex.toNat (bytes.take n.toNat)
          bytecount := s.bytecount + n
          bufferIndex := s.bufferIndex + n }
  | .error _ => .return s.inputBuffer (-1)

/-- The copied bytes lie in the buffer, with room left for the terminator. -/
structure Reading.Fits (bufferSize : Int) (s : Reading) : Prop where
  counted : s.bytecount = s.bufferIndex
  nonneg : 0 ≤ s.bufferIndex
  room : s.bufferIndex < bufferSize

theorem Reading.fits_initial {bufferSize : Int} (h : 0 < bufferSize) (inputBuffer : Nat → UInt8) :
    (Reading.initial inputBuffer).Fits bufferSize :=
  ⟨rfl, Int.le_refl 0, h⟩

theorem bytesToCopy_nonneg {bufferSize : Int} {s : Reading} (h : s.Fits bufferSize)
    (bytes : List UInt8) : 0 ≤ bytesToCopy bufferSize s bytes := by
  have hroom := h.room
  unfold bytesToCopy
  split <;> omega

theorem bytesToCopy_lt {bufferSize : Int} {s : Reading} (h : s.Fits bufferSize)
    (bytes : List UInt8) : s.bufferIndex + bytesToCopy bufferSize s bytes < bufferSize := by
  have hroom := h.room
  unfold bytesToCopy
  split <;> omega

theorem fits_of_again {bufferSize : Int} {s t : Reading} {r : ReadResult} (h : s.Fits bufferSize)
    (hr : readTurn bufferSize s r = .again t) : t.Fits bufferSize := by
  cases r with
  | error rc => exact absurd hr (by simp [readTurn])
  | data bytes =>
      cases bytes with
      | nil => exact absurd hr (by simp [readTurn])
      | cons b bytes =>
          have hnonneg := bytesToCopy_nonneg h (b :: bytes)
          have hlt := bytesToCopy_lt h (b :: bytes)
          obtain rfl := ReadOutcome.again.inj hr
          refine ⟨?_, ?_, hlt⟩
          · simp only [h.counted]
          · simp only
            have hindex := h.nonneg
            omega

/-- The only results that come back as a failure are the negative ones. -/
theorem return_neg_iff {bufferSize : Int} {s : Reading} {r : ReadResult} {m : Nat → UInt8} {n : Int}
    (h : s.Fits bufferSize) (hr : readTurn bufferSize s r = .return m n) :
    n < 0 ↔ ∃ rc, r = .error rc := by
  have hcounted := h.counted
  have hnonneg := h.nonneg
  cases r with
  | error rc =>
      obtain ⟨_, rfl⟩ := ReadOutcome.return.inj hr
      exact iff_of_true (by decide) ⟨rc, rfl⟩
  | data bytes =>
      cases bytes with
      | cons b bytes => exact absurd hr (by simp [readTurn])
      | nil =>
          obtain ⟨_, rfl⟩ := ReadOutcome.return.inj hr
          refine iff_of_false (by omega) ?_
          rintro ⟨rc, hrc⟩
          exact absurd hrc (by simp)

end InfoGlobe.SshDriver
