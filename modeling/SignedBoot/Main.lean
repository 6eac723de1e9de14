import SignedBoot.Cli.Client
import SignedBoot.Cli.Patcher

/-!
# The command line

The first word chooses the tool: `client` or `patcher`. The files that the command names are read
beforehand, and the outcome is carried out afterwards; everything in between is a pure function.
Serial lines of the machine are not driven from here, so opening one always fails.
-/

namespace SignedBoot.Cli

open Host

/-- Why reading a file failed. -/
def ioFailure : IO.Error → IoFailure
  | .noFileOrDirectory .. => .noSuchFile
  | .permissionDenied .. => .kind .permissionDenied
  | .inappropriateType .. => .isDirectory
  | _ => .kind .other

/-- Reads a file. -/
def readFile (path : String) : IO (Except IoFailure Bytes) := do
  try
    return .ok (← IO.FS.readBinFile path).data.toList
  catch e =>
    return .error (ioFailure e)

/-- Reads some files ahead of a command. -/
def readFiles (paths : List String) : IO (String → Except IoFailure Bytes) := do
  let files ← paths.mapM fun path => return (path, ← readFile path)
  return fun path => (files.lookup path).getD (.error .noSuchFile)

/-- Carries out an outcome. -/
def perform (outcome : Outcome) : IO UInt32 := do
  IO.print outcome.stdout
  match outcome.output with
  | none =>
    IO.eprint outcome.stderr
    return outcome.code.toUInt32
  | some (path, text) =>
    try
      IO.FS.writeFile path text
      IO.eprint outcome.stderr
      return outcome.code.toUInt32
    catch _ =>
      IO.eprint outcome.unwritten.stderr
      return outcome.unwritten.code.toUInt32

/-- Runs the update client. -/
def runClient (words : List String) : IO UInt32 := do
  let inputs := match Client.Invocation.parse words with
    | .ok i => (i.command.map Client.Command.inputs).getD []
    | .error _ => []
  let read ← readFiles inputs
  perform (Client.run ⟨read, .ok [], fun _ _ => .error "no access to serial lines"⟩ words)

/-- Runs the patch tool. -/
def runPatcher (words : List String) : IO UInt32 := do
  let inputs := match Patcher.Invocation.parse words with
    | .ok i => [i.input]
    | .error _ => []
  perform (Patcher.run (← readFiles inputs) words)

end SignedBoot.Cli

/-- Chooses the tool by the first word. -/
def main (words : List String) : IO UInt32 :=
  match words with
  | "client" :: rest => SignedBoot.Cli.runClient rest
  | "patcher" :: rest => SignedBoot.Cli.runPatcher rest
  | _ => do
    IO.eprintln "usage: client ... | patcher ..."
    return 2
