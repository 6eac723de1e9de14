import SignedBoot.Key.Base64
import SignedBoot.Text.Lines

/-!
# PEM envelopes

A key file wraps its bytes in Base64 between two tag lines. The envelope is found by looking for
its markers one after the other in the bytes of the file; text around it does not matter. In front
of the data there may be header lines, set off by an empty line.

The search for a marker never looks at a byte twice: when a partial match breaks off, it starts
afresh behind the byte that broke it. So a marker with a stray copy of its own start in front is
passed over.
-/

namespace SignedBoot.Pem

/-- Why there is no envelope, or no usable one. -/
inductive PemError where
  /-- Some marker is missing. -/
  | malformedFraming
  /-- The opening tag is empty. -/
  | missingBeginTag
  /-- The closing tag is empty. -/
  | missingEndTag
  | mismatchedTags (opening closing : String)
  /-- A header line has no colon. -/
  | invalidHeader (line : String)
  /-- The data is not Base64. -/
  | invalidData
  | notUtf8
  deriving DecidableEq, Repr

def PemError.message : PemError → String
  | malformedFraming => "malformedframing"
  | missingBeginTag => "missing BEGIN tag"
  | missingEndTag => "missing END tag"
  | mismatchedTags opening closing =>
    "mismatching BEGIN (\"" ++ opening ++ "\") and END (\"" ++ closing ++ "\") tags"
  | invalidHeader line => "invalid header: " ++ line
  | invalidData => "invalid data"
  | notUtf8 => "not UTF-8"

/-- The bytes in front of the first match of a marker, and those behind it. `seen` holds every byte
looked at so far, last one first, and `left` the marker bytes still to come. -/
def search (marker seen left : Bytes) : Bytes → Option (Bytes × Bytes)
  | [] => none
  | b :: rest =>
    match left with
    | [] => none
    | expected :: left =>
      if b ≠ expected then search marker (b :: seen) marker rest
      else if left = [] then some (((b :: seen).drop marker.length).reverse, rest)
      else search marker (b :: seen) left rest

/-- Cuts a run of bytes around the first match of a marker. -/
def readUntil (marker input : Bytes) : Option (Bytes × Bytes) :=
  search marker [] marker input

/-- Drops spaces, tabs and line ends from the front. -/
def skipBlank (input : Bytes) : Bytes :=
  input.dropWhile fun b => b = 0x20 || b = 0x09 || b = 0x0A || b = 0x0D

/-- The parts of an envelope. -/
structure Parts where
  opening : Bytes
  headers : Bytes
  data : Bytes
  closing : Bytes

/-- Cuts the headers from the data: they end at the first empty line, if there is one. -/
def splitHeaders (body : Bytes) : Bytes × Bytes :=
  match readUntil [0x0A, 0x0A] body with
  | some cut => cut
  | none =>
    match readUntil [0x0D, 0x0A, 0x0D, 0x0A] body with
    | some cut => cut
    | none => ([], body)

/-- Five dashes. -/
def dashes : Bytes := List.replicate 5 0x2D

/-- Finds the parts of the first envelope in a file. -/
def parts? (input : Bytes) : Option Parts := do
  let (_, input) ← readUntil (dashes ++ Text.toUtf8 "BEGIN ") input
  let (opening, input) ← readUntil dashes input
  let (body, input) ← readUntil (dashes ++ Text.toUtf8 "END ") (skipBlank input)
  let (closing, _) ← readUntil dashes input
  let (headers, data) := splitHeaders body
  return ⟨opening, headers, data, closing⟩

/-- A tag with the bytes it was wrapped around. -/
structure Envelope where
  /-- What the bytes are. -/
  tag : String
  contents : Bytes
  deriving DecidableEq, Repr

/-- The characters of a part. -/
def text (bs : Bytes) : Except PemError (List Char) :=
  match Text.ofUtf8? bs with
  | some cs => .ok cs
  | none => .error .notUtf8

/-- Reads the first envelope in a file. -/
def parse (input : Bytes) : Except PemError Envelope := do
  let some parts := parts? input | throw .malformedFraming
  let opening ← text parts.opening
  if opening = [] then throw .missingBeginTag
  let closing ← text parts.closing
  if closing = [] then throw .missingEndTag
  if opening ≠ closing then
    throw (.mismatchedTags (String.ofList opening) (String.ofList closing))
  let data ← text parts.data
  let some contents := Base64.decode? (data.filter fun c => !Text.isBlank c) | throw .invalidData
  let headers ← text parts.headers
  match (Text.lines headers).find? fun line => !line.contains ':' with
  | some line => throw (.invalidHeader (String.ofList line))
  | none => return ⟨String.ofList opening, contents⟩

end SignedBoot.Pem
