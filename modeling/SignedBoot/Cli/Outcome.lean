import SignedBoot.Cli.Args

/-!
# Outcomes

What a command does, as a value: the exit code, what it prints, and the file it asks to be written,
if any. A command whose file cannot be written has failed after all.
-/

namespace SignedBoot.Cli

/-- Exit code of success. -/
abbrev success : Nat := 0

/-- Exit code of a command that reports an error. -/
abbrev failed : Nat := 1

/-- Exit code of a command that gives up. -/
abbrev gaveUp : Nat := 101

/-- Exit code of the patch command for input that it cannot read as Intel HEX. -/
abbrev unreadable : Nat := 255

/-- What a command does. -/
structure Outcome where
  code : Nat
  stdout : String
  stderr : String
  /-- The file to be written, with its contents. -/
  output : Option (String × String)

/-- A command line that was not understood. -/
def Outcome.ofUsageError (e : UsageError) : Outcome :=
  ⟨e.exitCode, "", "error: " ++ e.message ++ "\n", none⟩

/-- A command that could not write its file. -/
def Outcome.unwritten (o : Outcome) : Outcome :=
  { o with code := gaveUp, stderr := o.stderr ++ "unable to create output file\n" }

end SignedBoot.Cli
