import SignedBoot.Device.Session
import SignedBoot.Device.Verification

/-!
# From power-on to the application

After power-on the device listens for a host for a while. If one shows up it erases the application
area, says so, and serves an update session, after which it always resets. If none does, or the
line fails while listening, it checks the resident image and starts it only if it is genuine.

A run ends by starting the application or by a reset, and the ending keeps the cause.
-/

namespace SignedBoot.Device

open Flash Layout Wire

/-- What the device is doing. -/
inductive Phase where
  /-- Listening for a host. -/
  | handshakeWait
  /-- No host: checking and starting the resident image. -/
  | verifyAndBoot
  /-- A host: erasing the application area. -/
  | erase
  /-- Serving the host. -/
  | receive
  deriving DecidableEq, Repr

/-- Every phase, in the order in which they were listed. -/
def Phase.all : List Phase := [handshakeWait, verifyAndBoot, erase, receive]

/-! ## Listening for a host -/

/-- The number of request bytes matched after one more byte. A byte that does not continue the
request drops the partial match, and is not looked at as the start of a new one. -/
def advance (matched : Nat) (b : UInt8) : Nat :=
  if handshakeRequest[matched]? = some b then matched + 1 else 0

section
variable {σ ε : Type} [Channel σ ε]

/-- Polls for the rest of the handshake request, `left` times at most. -/
def listen : (left matched : Nat) → Attempt σ ε Bool
  | 0, _ => return false
  | left + 1, matched => do
    match ← Channel.poll (1000 * pollInterval) with
    | none => listen left matched
    | some b =>
      let matched := advance matched b
      if matched = handshakeRequest.length then return true
      else listen left matched

/-- Turns the receiver on and listens for a host until the window closes. -/
def awaitHandshake : Attempt σ ε Bool := do
  Attempt.update (Channel.setReceive true)
  listen pollLimit 0

end

/-! ## A whole run -/

/-- Why the device reset. -/
inductive Reset (ε : Type) where
  /-- The application area could not be erased. -/
  | eraseFailed (fault : Fault)
  /-- The host could not be told that the application area is erased. -/
  | answerLost (e : ε)
  /-- An update session ended. -/
  | sessionOver (ending : SessionEnd ε)
  /-- The resident image was found not to be genuine. -/
  | imageRejected (finding : Finding)
  /-- The resident image could not be read. -/
  | imageUnreadable (fault : Fault)
  deriving DecidableEq, Repr

/-- How a run ended. -/
inductive Ending (ε : Type) where
  /-- The application was started at an address, after this question had been answered with yes. -/
  | jump (addr : Nat) (question : Question)
  /-- The device reset. -/
  | reset (cause : Reset ε)
  deriving DecidableEq, Repr

/-- The question put to the signature check during a run, if any. -/
def Ending.question? {ε : Type} : Ending ε → Option Question
  | jump _ question => some question
  | reset (.imageRejected finding) => finding.question?
  | reset _ => none

/-- A board: program memory and the channel to the host. -/
structure Board (n : Nat) (σ : Type) where
  flash : Nor n
  link : σ

/-- A finished run and what it left behind. -/
structure Run (n : Nat) (σ ε : Type) where
  ending : Ending ε
  board : Board n σ

variable {n : Nat} {σ ε : Type} [Channel σ ε]

/-- Sends a status byte that nobody may be listening for. -/
def tell (status : Status) (link : σ) : σ :=
  ((Channel.send status.toByte).run link).2

/-- Checks the resident image and starts it if it is genuine. -/
def verifyAndBoot (check : Check) (key : Vector UInt8 33) (b : Board n σ) : Run n σ ε :=
  match verify sha256 check key b.flash with
  | .ok (.judged question true) =>
    ⟨.jump entry question, { b with link := tell .signatureValid b.link }⟩
  | .ok finding =>
    ⟨.reset (.imageRejected finding), { b with link := tell .signatureInvalid b.link }⟩
  | .error fault =>
    ⟨.reset (.imageUnreadable fault), { b with link := tell .signatureInvalid b.link }⟩

/-- Serves an update session to its end. -/
def receiveUpdate (b : Board n σ) : Run n σ ε :=
  let served := serve ⟨b.flash, Assembler.empty frameCapacity⟩ b.link
  let link :=
    match served.ending with
    | .refused why =>
      match why.status? with
      | some status => tell status served.link
      | none => served.link
    | _ => served.link
  ⟨.reset (.sessionOver served.ending), ⟨served.session.flash, link⟩⟩

/-- Erases the application area with the receiver off, tells the host, and takes the update. -/
def update (b : Board n σ) : Run n σ ε :=
  let link := Channel.setReceive false b.link
  match (eraseBelow loaderBase).run b.flash with
  | (.error fault, flash) => ⟨.reset (.eraseFailed fault), ⟨flash, link⟩⟩
  | (.ok (), flash) =>
    match (Channel.sendAll handshakeResponse).run link with
    | (.error e, link) => ⟨.reset (.answerLost e), ⟨flash, link⟩⟩
    | (.ok (), link) => receiveUpdate ⟨flash, Channel.setReceive true link⟩

/-- Runs the device from power-on until it resets or the application starts. -/
def powerOn (check : Check) (key : Vector UInt8 33) (b : Board n σ) : Run n σ ε :=
  match awaitHandshake.run b.link with
  | (.ok true, link) => update { b with link }
  | (.ok false, link) => verifyAndBoot check key { b with link }
  | (.error _, link) => verifyAndBoot check key { b with link }

end SignedBoot.Device
