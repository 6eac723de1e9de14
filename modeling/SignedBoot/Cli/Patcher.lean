import SignedBoot.Cli.Outcome
import SignedBoot.Patch

/-!
# The patch tool

The command line that adds the reset vector to the Intel HEX file of a loader. It gives up where
its file cannot be read or written, and has an exit code of its own for a file that is not Intel
HEX.
-/

namespace SignedBoot.Cli.Patcher

open Host

/-- A command line: the files to read and to write. -/
structure Invocation where
  input : String
  output : String
  deriving DecidableEq, Repr

/-- The file written unless the command line says otherwise. -/
def defaultOutput : String := "bootloader_patched.hex"

/-- Reads a command line. -/
def Invocation.parse (words : List String) : Except UsageError Invocation := do
  let parsed ← Cli.parse [helpOption, versionOption] words
  match parsed.rest with
  | [] => throw (.missing "subcommand")
  | "patch-bootloader" :: rest =>
    let given ← parseAll
      [fileOption "input" (some 'i'), fileOption "output" (some 'o'), helpOption, versionOption]
      rest
    return ⟨← given.required "input", (given.value? "output").getD defaultOutput⟩
  | "help" :: topics => throw (helpOn ["patch-bootloader"] topics)
  | word :: _ => throw (.unknown word)

/-- A command that ended with a code and a report. -/
def stopped (code : Nat) (why : String) : Outcome := ⟨code, "", why ++ "\n", none⟩

/-- Runs a command line that was understood, given what reading its file gave. -/
def runInvocation (i : Invocation) (contents : Except IoFailure Bytes) : Outcome :=
  match contents with
  | .error e => stopped gaveUp ("unable to open input file: " ++ e.message)
  | .ok bytes =>
    match Text.ofUtf8? bytes with
    | none => stopped gaveUp ("unable to read the whole file: " ++ IoFailure.notText.message)
    | some text =>
      match Patch.patch (String.ofList text) with
      | .error e => stopped unreadable ("error while parsing " ++ i.input ++ ": " ++ e.message)
      | .ok records =>
        match IntelHex.write records with
        | .error e => stopped gaveUp ("unable to write the records: " ++ e.message)
        | .ok text => ⟨success, "", "", some (i.output, text)⟩

/-- Runs a command line. -/
def run (read : String → Except IoFailure Bytes) (words : List String) : Outcome :=
  match Invocation.parse words with
  | .error e => Outcome.ofUsageError e
  | .ok i => runInvocation i (read i.input)

end SignedBoot.Cli.Patcher
