import SignedBoot.Wire.Command
import SignedBoot.Wire.Escape

/-!
# Requests

A request is a command with its operands. `Request.parse?` reads one from the opcode and the
payload of a received frame, `Request.encode?` writes the frame that carries it. The two were given
different tolerances: the parser takes a data payload of any declared length and ignores what
follows it, the encoder never writes more than one erase block per frame.
-/

namespace SignedBoot.Wire

/-- Most data bytes that one frame carries. -/
abbrev maxChunkLen : Nat := Layout.blockSize

/-- Length byte and 24-bit address in front of the data. -/
abbrev dataHeaderLen : Nat := 4

/-- Longest payload of any encoded request. -/
abbrev maxPayloadLen : Nat := dataHeaderLen + maxChunkLen

/-- Room for the longest encoded frame: every opcode and payload byte escaped. -/
abbrev maxEncodedLen : Nat := 2 + 2 * (1 + maxPayloadLen)

/-- Addresses travel in 24 bits. -/
abbrev maxAddress : Nat := 0xFFFFFF

/-- A command with its operands. -/
inductive Request where
  /-- Store the image size, already in its three-byte form. -/
  | size (field : Vector UInt8 Layout.sizeLen)
  /-- Store the image signature. -/
  | signature (field : Vector UInt8 Layout.signatureLen)
  /-- Program the bytes from `addr` on. -/
  | data (addr : Nat) (chunk : Bytes)
  /-- Leave the loader. -/
  | stop
  deriving DecidableEq, Repr

namespace Request

/-- The command of a request. -/
def opcode : Request → Opcode
  | size _ => .size
  | signature _ => .signature
  | data _ _ => .data
  | stop => .stop

/-- Reads the payload of a data frame: a length byte, three address bytes and at least one byte
more. As many data bytes as the length says must follow; what comes after them is ignored. -/
def parseData? : Bytes → Option Request
  | len :: a :: b :: c :: first :: rest =>
    if len.toNat ≤ (first :: rest).length then
      some (data (Bytes.toNat [a, b, c]) ((first :: rest).take len.toNat))
    else none
  | _ => none

/-- Reads a request from the opcode and payload of a received frame. -/
def parse? (opcode : UInt8) (payload : Bytes) : Option Request :=
  match Opcode.ofByte? opcode with
  | none => none
  | some .size => (payload.toField? Layout.sizeLen).map size
  | some .signature => (payload.toField? Layout.signatureLen).map signature
  | some .data => parseData? payload
  | some .stop => if payload = [] then some stop else none

/-- The request that stores an image size, if the size fits the field. -/
def ofSize? (n : Nat) : Option Request :=
  if n ≤ maxAddress then some (size (Bytes.field Layout.sizeLen n)) else none

/-- The operands of a request as payload bytes. -/
def payload : Request → Bytes
  | size field => field.toList
  | signature field => field.toList
  | data addr chunk => UInt8.ofNat chunk.length :: Bytes.ofNat 3 addr ++ chunk
  | stop => []

/-- Whether a request's operands have a place in a frame. Only data can be too long or aim too
high. -/
def Fits : Request → Prop
  | data addr chunk => chunk.length ≤ maxChunkLen ∧ addr ≤ maxAddress
  | _ => True

instance (r : Request) : Decidable r.Fits :=
  match r with
  | size _ => .isTrue trivial
  | signature _ => .isTrue trivial
  | data _ _ => inferInstanceAs (Decidable (_ ∧ _))
  | stop => .isTrue trivial

/-- The escaped frame of a request, whatever its length. -/
def frame (r : Request) : Bytes :=
  frameStart :: escape (r.opcode.toByte :: r.payload) ++ [frameEnd]

/-- The frame that carries a request, unless its operands do not fit or the frame would overrun the
room for an encoded frame. -/
def encode? (r : Request) : Option Bytes :=
  if r.Fits then
    if r.frame.length ≤ maxEncodedLen then some r.frame else none
  else none

end Request

end SignedBoot.Wire
