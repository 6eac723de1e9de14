import SignedBoot.IntelHex.Record

/-!
# Writing Intel HEX

A list of records can be written if its last record, and no other, is the end-of-file record. Each
record takes a line, in upper case and ended by a newline.
-/

namespace SignedBoot.IntelHex

/-- Why records cannot be written. -/
inductive WriteError where
  /-- The last record is not an end-of-file record. -/
  | missingEndOfFile
  /-- There are several end-of-file records. -/
  | multipleEndOfFile (count : Nat)
  /-- A data record holds more bytes than its length byte can say. -/
  | dataTooLong (length : Nat)
  deriving DecidableEq, Repr

def WriteError.message : WriteError → String
  | missingEndOfFile => "object is missing end of file record"
  | multipleEndOfFile count =>
    "object contains " ++ toString count ++ " end of file records"
  | dataTooLong length => "record holds " ++ toString length ++ " data bytes, at most 255 fit"

namespace Record

/-- The bytes of a record in front of its checksum. -/
def body (r : Record) : Bytes :=
  UInt8.ofNat r.payload.length :: Bytes.ofNat 2 r.address.toNat ++ r.kind :: r.payload

/-- The line of a record. -/
def line (r : Record) : List Char :=
  ':' :: (r.body ++ [checksum r.body]).flatMap Bytes.upperPair ++ ['\n']

end Record

/-- The text of a list of records. -/
def write (records : List Record) : Except WriteError String :=
  let ends := records.count .endOfFile
  if records.getLast? ≠ some .endOfFile then .error .missingEndOfFile
  else if ends ≠ 1 then .error (.multipleEndOfFile ends)
  else
    match records.find? fun r => 255 < r.payload.length with
    | some r => .error (.dataTooLong r.payload.length)
    | none => .ok (String.ofList (records.flatMap Record.line))

end SignedBoot.IntelHex
