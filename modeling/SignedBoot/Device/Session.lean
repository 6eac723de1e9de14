import SignedBoot.Device.Channel
import SignedBoot.Flash.Blocks
import SignedBoot.Wire.Assembler
import SignedBoot.Wire.Request

/-!
# Update sessions

Once the application area has been erased the device takes frames from the host, executes each one
and acknowledges it, until a frame is refused, the host says stop, or the channel fails.

`handle` executes one request on program memory. It refuses data that would reach the signature
record, and it never touches address 0: the first word of the image goes to `entry`, its second
word nowhere. `Session.take` is what a single received byte does, and `serve` is the loop around
it.
-/

namespace SignedBoot.Device

open Flash Layout Wire

/-- Why a frame was refused. -/
inductive Refusal where
  /-- Unknown command or malformed payload. -/
  | invalidPayload
  /-- The data would reach the signature record or beyond. -/
  | deniedAddress
  /-- Program memory failed. -/
  | storage (fault : Fault)
  deriving DecidableEq, Repr

namespace Refusal

/-- What the host is told before the session ends; a memory failure is not reported. -/
def status? : Refusal → Option Status
  | invalidPayload => some .invalidPayload
  | deniedAddress => some .deniedAddress
  | storage _ => none

def message : Refusal → String
  | invalidPayload => "invalid request payload"
  | deniedAddress => "address outside the application area"
  | storage fault => "program memory error: " ++ fault.name

end Refusal

/-- What executing a request leads to. -/
inductive Reaction where
  | proceed
  /-- The device resets. -/
  | restart
  deriving DecidableEq, Repr

variable {n k : Nat}

/-- A memory operation whose failure refuses the request. -/
def orRefuse {α : Type} (action : Action n α) : Attempt (Nor n) Refusal α :=
  action.mapError .storage

/-- Programs a chunk of the image. At address 0 the first word moves to `entry`, and the second word
of the chunk is left out. -/
def programChunk (addr : Nat) (chunk : Bytes) : Attempt (Nor n) Refusal Unit := do
  if addressSpace ≤ addr + chunk.length then .fail (.storage .addressOverflow)
  if signatureField ≤ addr + chunk.length then .fail .deniedAddress
  if addr = 0 then
    orRefuse (program entry (chunk.take vectorLen))
    orRefuse (program (2 * vectorLen) (chunk.drop (2 * vectorLen)))
  else
    orRefuse (program addr chunk)

/-- Executes a request. -/
def execute : Request → Attempt (Nor n) Refusal Reaction
  | .size field => do
    orRefuse (program sizeField field.toList)
    return .proceed
  | .signature field => do
    orRefuse (program signatureField field.toList)
    return .proceed
  | .data addr chunk => do
    programChunk addr chunk
    return .proceed
  | .stop => return .restart

/-- Executes the request in a frame with an opcode. -/
def handle (opcode : UInt8) (payload : Bytes) : Attempt (Nor n) Refusal Reaction :=
  match Request.parse? opcode payload with
  | none => .fail .invalidPayload
  | some request => execute request

/-- Executes a frame; without an opcode there is nothing to do. -/
def handleFrame (frame : Frame) : Attempt (Nor n) Refusal Reaction :=
  match frame.opcode with
  | none => return .proceed
  | some opcode => handle opcode frame.payload

/-- The device's side of a session: program memory and the frame being assembled. -/
structure Session (n k : Nat) where
  flash : Nor n
  /-- The frame being assembled. -/
  assembler : Assembler k

/-- What a received byte leads to. -/
inductive Outcome where
  /-- The byte completed no frame. -/
  | quiet
  /-- A frame was executed and is to be acknowledged. -/
  | executed
  /-- The host asked for a reset. -/
  | stopped
  | refused (why : Refusal)
  deriving DecidableEq, Repr

/-- Takes one received byte and executes the frame it completes, if any. -/
def Session.take (s : Session n k) (b : UInt8) : Outcome × Session n k :=
  match s.assembler.feed b with
  | (assembler, none) => (.quiet, { s with assembler })
  | (assembler, some frame) =>
    match (handleFrame frame).run s.flash with
    | (.ok .proceed, flash) => (.executed, ⟨flash, assembler⟩)
    | (.ok .restart, flash) => (.stopped, ⟨flash, assembler⟩)
    | (.error why, flash) => (.refused why, ⟨flash, assembler⟩)

/-- How a session ended. -/
inductive SessionEnd (ε : Type) where
  | refused (why : Refusal)
  /-- The channel failed. -/
  | linkLost (e : ε)
  /-- The host asked for a reset. -/
  | stopped
  deriving DecidableEq, Repr

/-- A finished session and what it left behind. -/
structure Served (n k : Nat) (σ ε : Type) where
  ending : SessionEnd ε
  /-- Program memory and the frame being assembled. -/
  session : Session n k
  link : σ

/-- Receives, executes and acknowledges frames until the session ends. -/
def serve {σ ε : Type} [Channel σ ε] (s : Session n k) (link : σ) : Served n k σ ε :=
  match _hreceive : Channel.receive.run link with
  | (.error e, link) => ⟨.linkLost e, s, link⟩
  | (.ok b, link1) =>
    match s.take b with
    | (.quiet, s) => serve s link1
    | (.stopped, s) => ⟨.stopped, s, link1⟩
    | (.refused why, s) => ⟨.refused why, s, link1⟩
    | (.executed, s) =>
      match _hsend : (Channel.send Status.ack.toByte).run link1 with
      | (.error e, link2) => ⟨.linkLost e, s, link2⟩
      | (.ok (), link2) => serve s link2
termination_by Channel.pending link
decreasing_by
  · exact Channel.receive_pending _hreceive
  · exact Nat.lt_of_le_of_lt (Channel.send_pending _hsend) (Channel.receive_pending _hreceive)

end SignedBoot.Device
