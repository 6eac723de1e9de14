import SignedBoot.Host.Image
import SignedBoot.Host.Line

/-!
# The host's side of an update

`handshake` repeats the start sequence until the device confirms it, `flash` sends the image, its
size and its signature, and tells the device to reset. Every request but the last is answered by
the device before the next one is sent.
-/

namespace SignedBoot.Host

open Wire

/-- Pause after each byte of the start sequence, in milliseconds. -/
abbrev byteGap : Nat := 1

/-- Silence that ends a wait for the handshake response, in milliseconds. -/
abbrev readTimeout : Nat := 500

/-- Silence that ends a wait for an acknowledgement, in milliseconds. -/
abbrev ackTimeout : Nat := 5000

/-- An operation of the line; its failure is a failure of the host. -/
def onLine {α : Type} (action : Attempt Line IoKind α) : Attempt Line Failure α :=
  action.mapError fun k => .link (.kind k)

/-- Sends a run of bytes and waits until it has left. -/
def transmit (bs : Bytes) : Attempt Line Failure Unit :=
  onLine do
    Line.writeAll bs
    Line.flush

/-! ## The handshake -/

/-- Sends the start sequence byte by byte, since the device polls for each. -/
def knock : Attempt Line Failure Unit :=
  handshakeRequest.forM fun b => do
    transmit [b]
    Attempt.update (Line.sleep byteGap)

/-- Whether the bytes received so far, last one first, end with the expected ones. -/
def endsWith (expected received : Bytes) : Bool :=
  expected.reverse.isPrefixOf received

/-- Reads from a line until the bytes received end with the expected ones, or it falls silent. The
bytes received so far are given last one first. -/
def expectAfter (expected received : Bytes) (l : Line) : Except Failure Bool × Line :=
  match _h : (Line.read readTimeout).run l with
  | (.error k, l) => (.error (.link (.kind k)), l)
  | (.ok none, l) => (.ok false, l)
  | (.ok (some b), l1) =>
    if endsWith expected (b :: received) then (.ok true, l1)
    else expectAfter expected (b :: received) l1
termination_by l.incoming.length
decreasing_by exact Line.read_incoming_lt _h

/-- Reads until the bytes received end with the expected ones, or the line falls silent. -/
def expect (expected : Bytes) : Attempt Line Failure Bool :=
  ⟨expectAfter expected []⟩

/-- Repeats the start sequence until the device confirms that it is ready. -/
def handshake : (attempts : Nat) → Attempt Line Failure Unit
  | 0 => .fail .handshakeFailed
  | attempts + 1 => do
    knock
    if ← expect handshakeResponse then pure () else handshake attempts

/-! ## Requests -/

/-- What a byte says about the request sent last: nothing, or that it was executed or refused. -/
def reply? (b : UInt8) : Option (Except Failure Unit) :=
  match Status.ofByte? b with
  | some .ack => some (.ok ())
  | some .invalidPayload => some (.error .invalidPayload)
  | some .deniedAddress => some (.error .deniedAddress)
  | _ => none

/-- Reads from a line until the device answers the last request; other bytes are passed over. -/
def replyFrom (l : Line) : Except Failure Unit × Line :=
  match _h : (Line.read ackTimeout).run l with
  | (.error k, l) => (.error (.link (.kind k)), l)
  | (.ok none, l) => (.error .noAck, l)
  | (.ok (some b), l1) =>
    match reply? b with
    | some answer => (answer, l1)
    | none => replyFrom l1
termination_by l.incoming.length
decreasing_by exact Line.read_incoming_lt _h

/-- Waits for the device's answer to the last request. -/
def awaitReply : Attempt Line Failure Unit :=
  ⟨replyFrom⟩

/-- Sends a request. -/
def send (r : Request) : Attempt Line Failure Unit :=
  match r.encode? with
  | none => .fail .invalidPayload
  | some frame => transmit frame

/-- Sends a request and waits for its acknowledgement. -/
def request (r : Request) : Attempt Line Failure Unit := do
  send r
  awaitReply

/-- The requests that program the pieces of an image. -/
def dataRequests (image : Image) : List Request :=
  image.chunks.map fun piece => .data piece.1 piece.2

/-- Programs an image and its signature, then tells the device to reset. -/
def flash (image : Image) (signature : Vector UInt8 Layout.signatureLen) :
    Attempt Line Failure Unit := do
  (dataRequests image).forM request
  match Request.ofSize? image.size with
  | none => .fail (.imageTooLarge image.size)
  | some size => request size
  request (.signature signature)
  send .stop

end SignedBoot.Host
