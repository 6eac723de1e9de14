import SignedBoot.IntelHex.Record
import SignedBoot.Text.Lines

/-!
# Reading Intel HEX

The records of a text are read line by line up to the first faulty line or the end-of-file record;
what comes after that is not looked at. A line with several faults is reported for the first of
them in this order: start code, characters, length of the line, checksum, payload length, type.
-/

namespace SignedBoot.IntelHex

/-- Why a line is not a record. -/
inductive ReadError where
  /-- The line does not start with a colon. -/
  | missingStartCode
  /-- Some character is no hexadecimal digit. -/
  | invalidCharacters
  /-- Fewer digits than the shortest record has. -/
  | tooShort
  /-- More digits than the longest record has. -/
  | tooLong
  /-- A lone digit is left over. -/
  | oddLength
  /-- The checksum is not the one computed. -/
  | checksumMismatch (computed found : UInt8)
  /-- The payload is not as long as the header says. -/
  | payloadLengthMismatch
  /-- The payload does not have the length that records of this type have. -/
  | lengthForType
  /-- There are no records of this type. -/
  | unsupportedType (kind : UInt8)
  deriving DecidableEq, Repr

def ReadError.message : ReadError → String
  | missingStartCode => "missing start code ':'"
  | invalidCharacters => "invalid characters encountered in record"
  | tooShort => "too short"
  | tooLong => "too long"
  | oddLength => "record does not contain a whole number of bytes"
  | checksumMismatch computed found =>
    "invalid checksum '" ++ String.ofList (Bytes.upperPair computed) ++ "', expecting '" ++
      String.ofList (Bytes.upperPair found) ++ "'"
  | payloadLengthMismatch => "payload length does not match record header"
  | lengthForType => "payload length invalid for record type"
  | unsupportedType kind =>
    "unsupported IHEX record type '" ++ String.ofList (Bytes.upperPair kind) ++ "'"

/-- Number of digits of the shortest record: length, address, type and checksum. -/
abbrev minDigits : Nat := 10

/-- Number of digits of the longest record, which has 255 payload bytes. -/
abbrev maxDigits : Nat := minDigits + 2 * 255

/-- A 16-bit number from its two bytes. -/
def word (hi lo : UInt8) : UInt16 :=
  UInt16.ofNat (Bytes.toNat [hi, lo])

/-- The record of a given type, address and payload. -/
def Record.ofParts (kind : UInt8) (address : UInt16) (payload : Bytes) : Except ReadError Record :=
  if kind = 0 then .ok (.data address payload)
  else if kind = 1 then
    match payload with
    | [] => .ok .endOfFile
    | _ => .error .lengthForType
  else if kind = 2 then
    match payload with
    | [a, b] => .ok (.extendedSegment (word a b))
    | _ => .error .lengthForType
  else if kind = 3 then
    match payload with
    | [a, b, c, d] => .ok (.startSegment (word a b) (word c d))
    | _ => .error .lengthForType
  else if kind = 4 then
    match payload with
    | [a, b] => .ok (.extendedLinear (word a b))
    | _ => .error .lengthForType
  else if kind = 5 then
    match payload with
    | [a, b, c, d] => .ok (.startLinear (UInt32.ofNat (Bytes.toNat [a, b, c, d])))
    | _ => .error .lengthForType
  else .error (.unsupportedType kind)

/-- The record made of the given bytes, the last of which is its checksum. -/
def Record.ofBytes (bs : Bytes) : Except ReadError Record :=
  let body := bs.dropLast
  let found := bs.getLastD 0
  if checksum body ≠ found then .error (.checksumMismatch (checksum body) found)
  else
    match body with
    | length :: hi :: lo :: kind :: payload =>
      if payload.length ≠ length.toNat then .error .payloadLengthMismatch
      else Record.ofParts kind (word hi lo) payload
    | _ => .error .tooShort

/-- Reads one line. -/
def Record.ofLine : List Char → Except ReadError Record
  | ':' :: digits =>
    if digits.any fun c => (Bytes.hexValue? c).isNone then .error .invalidCharacters
    else if digits.length < minDigits then .error .tooShort
    else if maxDigits < digits.length then .error .tooLong
    else
      match Bytes.ofHex? digits with
      | none => .error .oddLength
      | some bs => Record.ofBytes bs
  | _ => .error .missingStartCode

/-- Reads lines, none of them empty, up to the first fault or the end-of-file record. -/
def readLines : List (List Char) → List Record × Option ReadError
  | [] => ([], none)
  | line :: rest =>
    match Record.ofLine line with
    | .error e => ([], some e)
    | .ok .endOfFile => ([.endOfFile], none)
    | .ok record =>
      let more := readLines rest
      (record :: more.1, more.2)

/-- The records of a text, and the fault that ended it early, if any. Empty lines do not count. -/
def read (text : String) : List Record × Option ReadError :=
  readLines ((Text.lines text.toList).filter fun line => !line.isEmpty)

end SignedBoot.IntelHex
