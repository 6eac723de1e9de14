import SignedBoot.Bytes

/-!
# Text

Key and image files are text. A line ends with a newline, or with a carriage return and a newline;
a carriage return alone belongs to its line. White space is every character that Unicode gives the
property of that name.
-/

namespace SignedBoot.Text

/-- The characters up to the first newline, and those after it if there is one. -/
def cutLine : List Char → List Char × Option (List Char)
  | [] => ([], none)
  | c :: rest =>
    if c = '\n' then ([], some rest)
    else
      let cut := cutLine rest
      (c :: cut.1, cut.2)

theorem cutLine_length_lt {text rest : List Char} (h : (cutLine text).2 = some rest) :
    rest.length < text.length := by
  induction text with
  | nil => cases h
  | cons c text ih =>
    unfold cutLine at h
    split at h
    · cases h; exact Nat.lt_succ_self _
    · exact Nat.lt_succ_of_lt (ih h)

/-- A line without the carriage return of its ending. -/
def dropReturn (line : List Char) : List Char :=
  if line.getLast? = some '\r' then line.dropLast else line

/-- The lines of a text. What follows the last newline is a line only if there is any of it, and
keeps a carriage return at its end. -/
def lines (text : List Char) : List (List Char) :=
  match _h : cutLine text with
  | (line, some rest) => dropReturn line :: lines rest
  | ([], none) => []
  | (line, none) => [line]
termination_by text.length
decreasing_by exact cutLine_length_lt (by rw [_h])

/-- Whether a character is white space. -/
def isBlank (c : Char) : Bool :=
  let n := c.toNat
  (9 ≤ n && n ≤ 13) || n == 0x20 || n == 0x85 || n == 0xA0 || n == 0x1680 ||
    (0x2000 ≤ n && n ≤ 0x200A) || n == 0x2028 || n == 0x2029 || n == 0x202F || n == 0x205F ||
    n == 0x3000

/-- The characters of some bytes, if these are well-formed UTF-8. -/
def ofUtf8? (bs : Bytes) : Option (List Char) :=
  (String.fromUTF8? ⟨bs.toArray⟩).map String.toList

/-- The bytes of a text in UTF-8. -/
def toUtf8 (text : String) : Bytes :=
  text.toUTF8.data.toList

/-- A number in hexadecimal, with its marker and no leading zeros. -/
def hexNumber (n : Nat) : String :=
  "0x" ++ String.ofList (Nat.toDigits 16 n)

end SignedBoot.Text
