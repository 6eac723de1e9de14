import SignedBoot.Cli.Outcome
import SignedBoot.Host.Signer
import SignedBoot.Host.Update

/-!
# The update client

The command line that signs an image and sends it to the device, and that shows the digest of an
image or the public half of a key. What it sees of the world is passed in: the files, the lines
there are, and what opening one of them gives.
-/

namespace SignedBoot.Cli.Client

open Host

/-- What to do. -/
inductive Command where
  /-- Sign an image and program it. -/
  | flash (hex key : String) (attempts : Nat)
  /-- Show size and digest of an image. -/
  | digest (hex : String)
  /-- Show the public half of a key. -/
  | publicKey (key : String)
  deriving DecidableEq, Repr

/-- A command line. -/
structure Invocation where
  /-- Whether the lines are to be listed, which takes precedence. -/
  listLines : Bool
  /-- The line to the device. -/
  line : String
  /-- The speed of the line. -/
  speed : Nat
  /-- What to do, if anything. -/
  command : Option Command
  deriving DecidableEq, Repr

/-- The speed of a line as a number. -/
def speed? : String → Option Nat := signed? 0xFFFFFFFF

/-- A number of handshakes. -/
def attempts? : String → Option Nat := natural? 0xFFFFFFFFFFFFFFFF

/-- The options in front of the subcommand. Every text may name a line. -/
def globalOptions : List OptionSpec :=
  [⟨"list-ports", some 'l', none⟩, ⟨"port", some 'p', some fun _ => true⟩,
    numberOption "baudrate" (some 'b') speed?, helpOption, versionOption]

/-- Number of handshakes tried unless the command line says otherwise. -/
abbrev defaultAttempts : Nat := 20

/-- Reads a subcommand. -/
def Command.parse (words : List String) : Except UsageError (Option Command) :=
  match words with
  | [] => .ok none
  | "flash" :: rest => do
    let given ← parseAll
      [fileOption "hex" none, fileOption "key" none, numberOption "attempts" none attempts?,
        helpOption] rest
    return some (.flash (← given.required "hex") (← given.required "key")
      (given.number "attempts" attempts? defaultAttempts))
  | "digest" :: rest => do
    let given ← parseAll [fileOption "hex" none, helpOption] rest
    return some (.digest (← given.required "hex"))
  | "pubkey" :: rest => do
    let given ← parseAll [fileOption "key" none, helpOption] rest
    return some (.publicKey (← given.required "key"))
  | "help" :: topics => .error (helpOn ["flash", "digest", "pubkey"] topics)
  | word :: _ => .error (.unknown word)

/-- Reads a command line. -/
def Invocation.parse (words : List String) : Except UsageError Invocation := do
  let parsed ← Cli.parse globalOptions words
  let command ← Command.parse parsed.rest
  let given ← parsed.progress.settle
  return ⟨(given.value? "list-ports").isSome, (given.value? "port").getD "/dev/ttyUSB0",
    given.number "baudrate" speed? Layout.lineSpeed, command⟩

/-- The files that a command reads. -/
def Command.inputs : Command → List String
  | flash hex key _ => [hex, key]
  | digest hex => [hex]
  | publicKey key => [key]

/-- What the client sees of the world. -/
structure World where
  /-- What reading a file gives. -/
  read : String → Except IoFailure Bytes
  /-- The names of the lines there are. -/
  lines : Except String (List String)
  /-- What opening a line at a speed gives. -/
  openLine : String → Nat → Except String Line

/-- A command that failed after printing something. -/
def report (printed : String) (e : Failure) : Outcome :=
  ⟨failed, printed, "Error: " ++ e.message ++ "\n", none⟩

/-- A command that printed something and succeeded. -/
def done (printed : String) : Outcome :=
  ⟨success, printed, "", none⟩

/-- The digest of an image in hexadecimal. -/
def digestText (image : Image) : String := Bytes.toHex image.digest.toList

/-- What is printed about an image before it is sent. -/
def imageLine (image : Image) : String :=
  "Image: " ++ toString image.size ++ " bytes, sha256 " ++ digestText image ++ "\n"

/-- Size and digest of an image. -/
def digestReport (image : Image) : String :=
  "size:   " ++ toString image.size ++ " (" ++ Text.hexNumber image.size ++ ")\n" ++
    "sha256: " ++ digestText image ++ "\n"

/-- A public key in both forms. -/
def keyReport (key : Vector UInt8 33) : String :=
  Bytes.toHex key.toList ++ "\n" ++ keyLiteral key ++ "\n"

/-- Sends an image over an open line. -/
def sendImage (image : Image) (signature : Vector UInt8 Layout.signatureLen) (attempts : Nat)
    (line : Line) (printed : String) : Outcome :=
  match (handshake attempts).run line with
  | (.error e, _) => report printed e
  | (.ok (), line) =>
    let printed := printed ++ "MCU ready\n"
    match (flash image signature).run line with
    | (.error e, _) => report printed e
    | (.ok (), _) => done (printed ++ "Flashing done\n")

/-- Signs an image and sends it. -/
def runFlash (world : World) (i : Invocation) (hex key : String) (attempts : Nat) : Outcome :=
  match Image.ofHexFile hex (world.read hex), secretKeyOfPemFile key (world.read key) with
  | .error e, _ => report "" e
  | .ok _, .error e => report "" e
  | .ok image, .ok secret =>
    match secret.sign? image.digest with
    | none => report "" .invalidSecretKey
    | some signature =>
      match world.openLine i.line i.speed with
      | .error why => report (imageLine image) (.openLine why)
      | .ok line => sendImage image signature attempts line (imageLine image)

/-- Runs a command line that was understood. -/
def runInvocation (world : World) (i : Invocation) : Outcome :=
  if i.listLines then
    match world.lines with
    | .error why => report "" (.openLine why)
    | .ok names =>
      done ("List of available serial ports:\n" ++
        String.join (names.map fun name => "- " ++ name ++ "\n"))
  else
    match i.command with
    | none => done ""
    | some (.flash hex key attempts) => runFlash world i hex key attempts
    | some (.digest hex) =>
      match Image.ofHexFile hex (world.read hex) with
      | .error e => report "" e
      | .ok image => done (digestReport image)
    | some (.publicKey key) =>
      match secretKeyOfPemFile key (world.read key) with
      | .error e => report "" e
      | .ok secret => done (keyReport secret.publicKey)

/-- Runs a command line. -/
def run (world : World) (words : List String) : Outcome :=
  match Invocation.parse words with
  | .error e => Outcome.ofUsageError e
  | .ok i => runInvocation world i

end SignedBoot.Cli.Client
