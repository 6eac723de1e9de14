import SignedBoot.Layout

/-!
# Commands and status bytes

The host drives a session by commands, each selected by one letter; the device answers with
single status letters. Both alphabets are small, and every other byte means nothing.
-/

namespace SignedBoot.Wire

/-- What the host asks for, selected by the first byte of a frame. -/
inductive Opcode where
  /-- Store the image size. -/
  | size
  /-- Store the image signature. -/
  | signature
  /-- Program a chunk of the image. -/
  | data
  /-- End the session and reset. -/
  | stop
  deriving DecidableEq, Repr

namespace Opcode

/-- The letter that selects a command: `M`, `N`, `D` or `X`. -/
def toByte : Opcode → UInt8
  | size => 0x4D
  | signature => 0x4E
  | data => 0x44
  | stop => 0x58

/-- The command that a letter selects. -/
def ofByte? (b : UInt8) : Option Opcode :=
  if b = 0x4D then some size
  else if b = 0x4E then some signature
  else if b = 0x44 then some data
  else if b = 0x58 then some stop
  else none

end Opcode

/-- What the device says to the host, one byte at a time. -/
inductive Status where
  /-- The frame was executed. -/
  | ack
  /-- The frame carried no well-formed request; the session is over. -/
  | invalidPayload
  /-- The frame aimed at the signature record or beyond; the session is over. -/
  | deniedAddress
  /-- The resident image is genuine and is being started. -/
  | signatureValid
  /-- The resident image is not genuine; the device resets. -/
  | signatureInvalid
  deriving DecidableEq, Repr

namespace Status

/-- The letter that stands for a status: `F`, `I`, `A`, `S` or `K`. -/
def toByte : Status → UInt8
  | ack => 0x46
  | invalidPayload => 0x49
  | deniedAddress => 0x41
  | signatureValid => 0x53
  | signatureInvalid => 0x4B

/-- The status that a letter stands for. -/
def ofByte? (b : UInt8) : Option Status :=
  if b = 0x46 then some ack
  else if b = 0x49 then some invalidPayload
  else if b = 0x41 then some deniedAddress
  else if b = 0x53 then some signatureValid
  else if b = 0x4B then some signatureInvalid
  else none

end Status

/-- What the host sends right after a reset to ask for an update: `@BTL` and a newline. -/
def handshakeRequest : Bytes := [0x40, 0x42, 0x54, 0x4C, 0x0A]

/-- What the device answers once the application area has been erased: `@OK` and a newline. -/
def handshakeResponse : Bytes := [0x40, 0x4F, 0x4B, 0x0A]

end SignedBoot.Wire
