/-!
# Command-line options

A small grammar of command lines: an option has a long name, may have a one-letter name, and may
take a value. A value follows its option as the next word, or is joined to it: `--name=value`,
`-nvalue`, `-n=value`. Letters of options without a value can share a dash. After a lone `--` no
word is an option any more. Every option may be given once.

The words of a command line are read up to the first that is none of this, which is where the name
of a subcommand may stand. Errors come in the order of the words, with one exception: a value in a
word of its own is looked at only when the next option turns up or the whole command line has been
read, so the words of a subcommand come before it.
-/

namespace SignedBoot.Cli

/-- What an option is called and which values it takes. -/
structure OptionSpec where
  /-- The name behind two dashes. -/
  long : String
  /-- The letter behind one dash. -/
  short : Option Char
  /-- Which values it accepts, if it takes one. -/
  accepts : Option (String → Bool)

/-- The option that asks for usage. -/
def helpOption : OptionSpec := ⟨"help", some 'h', none⟩

/-- The option that asks for the version. -/
def versionOption : OptionSpec := ⟨"version", some 'V', none⟩

/-- An option that names a file; no file has the empty name. -/
def fileOption (long : String) (short : Option Char) : OptionSpec :=
  ⟨long, short, some fun path => !path.isEmpty⟩

/-- An option whose value is a number. -/
def numberOption (long : String) (short : Option Char) (read : String → Option Nat) : OptionSpec :=
  ⟨long, short, some fun text => (read text).isSome⟩

/-- Options read from a command line: the long name, and the value if the option takes one. -/
abbrev Given := List (String × String)

/-- Why a command line was not read to its end. -/
inductive UsageError where
  /-- A word or an option is unknown. -/
  | unknown (word : String)
  /-- An option is without its value. -/
  | missingValue (name : String)
  /-- An option that takes none was given a value. -/
  | needlessValue (name : String)
  | repeated (name : String)
  /-- A value is not of the form that the option needs. -/
  | invalidValue (name value : String)
  /-- An option or a subcommand that must be there is not. -/
  | missing (name : String)
  | help
  | version
  deriving DecidableEq, Repr

/-- Records an option with its value. Asking for usage or for the version ends the reading. -/
def Given.add (given : Given) (spec : OptionSpec) (value : String) : Except UsageError Given :=
  if spec.long == "help" then .error .help
  else if spec.long == "version" then .error .version
  else if spec.accepts.any fun accepts => !accepts value then
    .error (.invalidValue spec.long value)
  else if given.any (·.1 == spec.long) then .error (.repeated spec.long)
  else .ok (given ++ [(spec.long, value)])

/-- The value of an option. -/
def Given.value? (given : Given) (long : String) : Option String :=
  given.lookup long

def UsageError.message : UsageError → String
  | unknown word => "unexpected argument '" ++ word ++ "' found"
  | missingValue name => "a value is required for '--" ++ name ++ "' but none was supplied"
  | needlessValue name => "no value is allowed for '--" ++ name ++ "'"
  | repeated name => "the argument '--" ++ name ++ "' cannot be used multiple times"
  | invalidValue name value => "invalid value '" ++ value ++ "' for '--" ++ name ++ "'"
  | missing name => "the argument '" ++ name ++ "' is required"
  | help => "see the description of the tool"
  | version => "version 1"

/-- The exit code that a faulty command line leads to. -/
def UsageError.exitCode : UsageError → Nat
  | help => 0
  | version => 0
  | _ => 2

/-- The option read last, as far as it is not recorded yet. -/
inductive Pending where
  /-- Everything is recorded. -/
  | nothing
  /-- The option takes the next word as its value. -/
  | wanting (spec : OptionSpec)
  /-- The option has got its value. -/
  | holding (spec : OptionSpec) (value : String)

/-- What the words so far have led to. -/
structure Progress where
  given : Given
  /-- The option to be recorded next. -/
  pending : Pending

/-- Records what is pending. -/
def Progress.settle (progress : Progress) : Except UsageError Given :=
  match progress.pending with
  | .nothing => .ok progress.given
  | .wanting spec => .error (.missingValue spec.long)
  | .holding spec value => progress.given.add spec value

/-- Cuts a text at its first equals sign. -/
def cutEquals : List Char → List Char × Option (List Char)
  | [] => ([], none)
  | '=' :: rest => ([], some rest)
  | c :: rest =>
    let cut := cutEquals rest
    (c :: cut.1, cut.2)

/-- Reads a word with two dashes, which are left out. -/
def readLong (specs : List OptionSpec) (given : Given) (word : List Char) :
    Except UsageError Progress :=
  let (name, value) := cutEquals word
  match specs.find? fun spec => spec.long.toList == name with
  | none => .error (.unknown ("--" ++ String.ofList name))
  | some spec =>
    if spec.accepts.isSome then
      match value with
      | some value => do return ⟨← given.add spec (String.ofList value), .nothing⟩
      | none => .ok ⟨given, .wanting spec⟩
    else
      match value with
      | some _ => .error (.needlessValue spec.long)
      | none => do return ⟨← given.add spec "", .nothing⟩

/-- Reads the letters behind one dash. -/
def readShort (specs : List OptionSpec) (given : Given) : List Char → Except UsageError Progress
  | [] => .ok ⟨given, .nothing⟩
  | letter :: rest =>
    match specs.find? fun spec => spec.short == some letter with
    | none => .error (.unknown (String.ofList ['-', letter]))
    | some spec =>
      if spec.accepts.isSome then
        match rest with
        | [] => .ok ⟨given, .wanting spec⟩
        | '=' :: value => do return ⟨← given.add spec (String.ofList value), .nothing⟩
        | value => do return ⟨← given.add spec (String.ofList value), .nothing⟩
      else do
        readShort specs (← given.add spec "") rest

/-- Options read from a command line, and the words from the first on that is no option. -/
structure Parsed where
  progress : Progress
  rest : List String

/-- Reads options until a word is none. -/
def readOptions (specs : List OptionSpec) (progress : Progress) :
    List String → Except UsageError Parsed
  | [] => .ok ⟨progress, []⟩
  | word :: rest =>
    match word.toList with
    | ['-', '-'] =>
      match rest with
      | [] => .ok ⟨progress, []⟩
      | next :: _ => .error (.unknown next)
    | '-' :: '-' :: long => do
      readOptions specs (← readLong specs (← progress.settle) long) rest
    | '-' :: c :: letters => do
      readOptions specs (← readShort specs (← progress.settle) (c :: letters)) rest
    | _ =>
      match progress.pending with
      | .wanting spec => readOptions specs ⟨progress.given, .holding spec word⟩ rest
      | _ => .ok ⟨progress, word :: rest⟩

/-- Reads the options at the front of a command line. -/
def parse (specs : List OptionSpec) (words : List String) : Except UsageError Parsed :=
  readOptions specs ⟨[], .nothing⟩ words

/-- Reads a command line that holds nothing but options. -/
def parseAll (specs : List OptionSpec) (words : List String) : Except UsageError Given := do
  let parsed ← parse specs words
  match parsed.rest with
  | [] => parsed.progress.settle
  | word :: _ => throw (.unknown word)

/-- What the subcommand that asks for usage leads to. It can be asked about itself and about one of
the others. -/
def helpOn (subcommands : List String) : (topics : List String) → UsageError
  | [] => .help
  | topic :: more =>
    if topic == "help" || subcommands.contains topic then
      match more with
      | [] => .help
      | word :: _ => .unknown word
    else .unknown topic

/-- The value of an option that must be there. -/
def Given.required (given : Given) (long : String) : Except UsageError String :=
  match given.value? long with
  | some value => .ok value
  | none => .error (.missing long)

/-- Digits as a number; there must be at least one. -/
def digits? (text : List Char) : Option Nat :=
  if text.isEmpty || text.any fun c => !c.isDigit then none
  else some (text.foldl (fun n c => n * 10 + (c.toNat - 48)) 0)

/-- A number without a sign, or with a plus, up to a limit. -/
def natural? (limit : Nat) (text : String) : Option Nat :=
  let digits := match text.toList with
    | '+' :: rest => rest
    | all => all
  match digits? digits with
  | some n => if n ≤ limit then some n else none
  | none => none

/-- A number with any sign, from zero up to a limit. -/
def signed? (limit : Nat) (text : String) : Option Nat :=
  match text.toList with
  | '-' :: rest => if digits? rest = some 0 then some 0 else none
  | _ => natural? limit text

/-- The value of a number option, or a default. -/
def Given.number (given : Given) (long : String) (read : String → Option Nat) (fallback : Nat) :
    Nat :=
  ((given.value? long).bind read).getD fallback

end SignedBoot.Cli
