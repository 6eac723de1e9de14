import SignedBoot.Wire.Escape
import SignedBoot.Layout

/-!
# Frame assembly

The device reassembles frames from the received byte stream one byte at a time. The buffer holds
`@`, the opcode and the payload with their escapes removed; the closing newline is not stored.
Filling the buffer drops everything collected so far, and the stream falls back in step at the next
`@`.

Bytes outside a frame are collected like any others. They are harmless: a newline closes a frame
only if the buffer starts with `@`, and an `@` without a backslash starts the buffer over.
-/

namespace SignedBoot.Wire

/-- A complete frame with its escapes removed. A frame without an opcode is complete too; it is
acknowledged like any other but carries nothing to execute. -/
structure Frame where
  /-- The command letter. -/
  opcode : Option UInt8
  /-- What follows the command letter. -/
  payload : Bytes
  deriving DecidableEq, Repr

/-- The state of frame assembly in a buffer of `n` bytes. -/
structure Assembler (n : Nat) where
  /-- The receive buffer. Bytes from `index` on are left over from earlier frames. -/
  buffer : Vector UInt8 n
  /-- Number of bytes collected. -/
  index : Nat
  /-- Whether the next byte is literal. -/
  escaped : Bool
  /-- A full buffer is emptied at once, so there is always room for one more byte. -/
  index_lt : index < n

namespace Assembler

variable {n : Nat}

/-- An assembler that has seen nothing. -/
def empty (n : Nat) (h : 0 < n := by first | decide | exact Nat.pos_of_neZero _) : Assembler n :=
  ⟨Vector.replicate n 0, 0, false, h⟩

/-- Forgets any partial frame. -/
def clear (s : Assembler n) : Assembler n :=
  ⟨s.buffer, 0, false, Nat.zero_lt_of_lt s.index_lt⟩

/-- The bytes collected so far. -/
def collected (s : Assembler n) : Bytes :=
  s.buffer.toList.take s.index

/-- Collects one literal byte; the byte that fills the buffer empties it. -/
def store (s : Assembler n) (b : UInt8) : Assembler n :=
  if h : s.index + 1 < n then
    ⟨s.buffer.set s.index b s.index_lt, s.index + 1, false, h⟩
  else
    ⟨s.buffer.set s.index b s.index_lt, 0, false, Nat.zero_lt_of_lt s.index_lt⟩

/-- The frame made of the bytes collected so far, the first of which is `@`. -/
def frame (s : Assembler n) : Frame :=
  match s.collected with
  | _ :: opcode :: payload => ⟨some opcode, payload⟩
  | _ => ⟨none, []⟩

/-- Takes one received byte and hands out the frame it completes, if any. The assembler is empty
again before the frame is handed out. -/
def feed (s : Assembler n) (b : UInt8) : Assembler n × Option Frame :=
  have pos : 0 < n := Nat.zero_lt_of_lt s.index_lt
  if s.escaped then (s.store b, none)
  else if b = frameEscape then ({ s with escaped := true }, none)
  else if h : b = frameStart ∧ 0 < s.index then
    have one_lt : 1 < n := Nat.lt_of_le_of_lt h.2 s.index_lt
    (⟨s.buffer.set 0 frameStart pos, 1, false, one_lt⟩, none)
  else if b = frameEnd ∧ 0 < s.index ∧ s.buffer[0] = frameStart then
    (s.clear, some s.frame)
  else (s.store b, none)

/-- Takes a run of bytes and hands out every frame it completes, each with the position of the byte
that completed it. -/
def feedAll (s : Assembler n) (bs : Bytes) : Assembler n × List (Nat × Frame) :=
  go s 0 bs
where
  /-- Feeds the rest of a run whose first byte has the given position. -/
  go (s : Assembler n) (position : Nat) : Bytes → Assembler n × List (Nat × Frame)
    | [] => (s, [])
    | b :: bs =>
      match s.feed b with
      | (s, none) => go s (position + 1) bs
      | (s, some frame) =>
        let (s, frames) := go s (position + 1) bs
        (s, (position, frame) :: frames)

end Assembler

end SignedBoot.Wire
