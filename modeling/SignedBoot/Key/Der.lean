import SignedBoot.Bytes

/-!
# Elliptic-curve keys in DER

A key is a sequence of the version number 1, the secret as a byte string, optionally the curve and
optionally the public key. Lengths are written in the shortest form, and nothing may be left over
inside or behind the sequence. Which curve it is and what the public key says do not matter; they
only have to be well-formed.
-/

namespace SignedBoot.Der

/-- One field: its tag byte and its contents. -/
structure Field where
  tag : UInt8
  contents : Bytes
  deriving DecidableEq, Repr

/-- The largest length that is accepted. -/
abbrev maxLength : Nat := 0xFFFFFFF

/-- A length in its long form: `count` bytes, none of them to spare. -/
def longLength? (count : Nat) (input : Bytes) : Option (Nat × Bytes) :=
  let digits := input.take count
  let n := Bytes.toNat digits
  if digits.length < count then none
  else if maxLength < n then none
  else if n < (if count = 1 then 0x80 else Bytes.span (count - 1)) then none
  else some (n, input.drop count)

/-- A length: one byte below 128, or the number of its bytes and the bytes. -/
def length? : Bytes → Option (Nat × Bytes)
  | [] => none
  | b :: rest =>
    if b < 0x80 then some (b.toNat, rest)
    else if 0x81 ≤ b ∧ b ≤ 0x84 then longLength? (b.toNat - 0x80) rest
    else none

/-- The first field of some bytes, and what follows it. -/
def field? : Bytes → Option (Field × Bytes)
  | [] => none
  | tag :: rest => do
    let (len, rest) ← length? rest
    let contents := rest.take len
    if contents.length < len then none
    else return (⟨tag, contents⟩, rest.drop len)

/-- The contents of the first field, which must have the given tag, and what follows it. -/
def expect? (tag : UInt8) (input : Bytes) : Option (Bytes × Bytes) := do
  let (field, rest) ← field? input
  if field.tag = tag then return (field.contents, rest) else none

/-- The contents of the only field, which must have the given tag. -/
def only? (tag : UInt8) (input : Bytes) : Option Bytes := do
  let (contents, rest) ← expect? tag input
  if rest = [] then return contents else none

/-- The number of a context-specific tag; other tags have none. -/
def contextNumber? (tag : UInt8) : Option Nat :=
  if tag &&& 0xC0 = 0x80 then some (tag &&& 0x1F).toNat else none

/-- Whether some bytes are whole numbers in groups of seven bits, every group but the last of a
number marked by the top bit. A number takes up to five bytes, the fifth of them below 16; `taken`
counts those of the current number. -/
def areArcs (taken : Nat) : Bytes → Bool
  | [] => taken = 0
  | b :: rest =>
    if 4 ≤ taken && 16 ≤ b then false
    else if b < 0x80 then areArcs 0 rest
    else areArcs (taken + 1) rest

/-- Whether some bytes are an object identifier of a usable length. The first one stands for two
numbers, of which the first is 2 at most. -/
def isObjectId : Bytes → Bool
  | [] => false
  | root :: arcs => root < 120 && areArcs 0 arcs && 2 ≤ arcs.length && arcs.length ≤ 38

/-- Whether the contents of a curve field are an object identifier. -/
def isCurve (contents : Bytes) : Bool :=
  match only? 0x06 contents with
  | some oid => isObjectId oid
  | none => false

/-- Whether the contents of a public-key field are a bit string of whole bytes. -/
def isPublicKey (contents : Bytes) : Bool :=
  match only? 0x03 contents with
  | some (unused :: _) => unused == 0
  | _ => false

/-- What follows the optional curve, the field with context number 0. -/
def skipCurve? (input : Bytes) : Option Bytes :=
  match input.head?.bind contextNumber? with
  | some 0 => do
    let (contents, rest) ← expect? 0xA0 input
    if isCurve contents then return rest else none
  | _ => some input

theorem longLength?_length_le {count len : Nat} {input rest : Bytes}
    (h : longLength? count input = some (len, rest)) : rest.length ≤ input.length := by
  simp only [longLength?] at h
  repeat' split at h
  all_goals cases h
  all_goals simp

theorem length?_length_lt {len : Nat} {input rest : Bytes} (h : length? input = some (len, rest)) :
    rest.length < input.length := by
  cases input with
  | nil => cases h
  | cons b input =>
    simp only [length?] at h
    split at h
    · cases h; exact Nat.lt_succ_self _
    · split at h
      · exact Nat.lt_succ_of_le (longLength?_length_le h)
      · cases h

/-- A field takes at least its tag. -/
theorem field?_length_lt {field : Field} {input rest : Bytes} (h : field? input = some (field, rest)) :
    rest.length < input.length := by
  cases input with
  | nil => cases h
  | cons tag input =>
    cases hl : length? input with
    | none => simp [field?, hl] at h
    | some p =>
      obtain ⟨len, rest1⟩ := p
      have lt := length?_length_lt hl
      simp only [field?, hl, Option.bind_eq_bind, Option.bind_some] at h
      split at h
      · cases h
      · cases h
        simp only [List.length_drop, List.length_cons]
        omega

/-- What follows the optional public key, the field with context number 1. Further fields with
number 0 are passed over unread on the way to it. -/
def skipPublicKey? (input : Bytes) : Option Bytes :=
  match input.head?.bind contextNumber? with
  | some 0 =>
    match _h : field? input with
    | none => none
    | some (_, rest) => skipPublicKey? rest
  | some 1 => do
    let (contents, rest) ← expect? 0xA1 input
    if isPublicKey contents then return rest else none
  | _ => some input
termination_by input.length
decreasing_by exact field?_length_lt _h

/-- The secret of an elliptic-curve key. -/
def secret? (input : Bytes) : Option Bytes := do
  let sequence ← only? 0x30 input
  let (version, rest) ← expect? 0x02 sequence
  if version = [1] then
    let (secret, rest) ← expect? 0x04 rest
    let rest ← skipCurve? rest
    let rest ← skipPublicKey? rest
    if rest = [] then return secret else none
  else none

end SignedBoot.Der
