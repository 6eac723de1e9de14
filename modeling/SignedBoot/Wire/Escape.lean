import SignedBoot.Bytes

/-!
# Markers and escapes

Three bytes have a meaning of their own on the line: `@` opens a frame, a newline closes it, and a
backslash makes the byte after it literal. A byte with a meaning is therefore sent behind a
backslash whenever it is meant as plain data.
-/

namespace SignedBoot.Wire

/-- Opens a frame, also in the middle of another one. -/
abbrev frameStart : UInt8 := 0x40

/-- Closes a frame. -/
abbrev frameEnd : UInt8 := 0x0A

/-- Makes the next byte literal. -/
abbrev frameEscape : UInt8 := 0x5C

/-- The bytes that have a meaning of their own. -/
def IsMarker (b : UInt8) : Prop :=
  b = frameStart ∨ b = frameEnd ∨ b = frameEscape

instance (b : UInt8) : Decidable (IsMarker b) :=
  inferInstanceAs (Decidable (_ ∨ _))

/-- One data byte as it travels inside a frame. -/
def escapeByte (b : UInt8) : Bytes :=
  if IsMarker b then [frameEscape, b] else [b]

/-- A run of data bytes as it travels inside a frame. -/
def escape (bs : Bytes) : Bytes :=
  bs.flatMap escapeByte

theorem escape_cons (b : UInt8) (bs : Bytes) : escape (b :: bs) = escapeByte b ++ escape bs :=
  List.flatMap_cons

theorem escape_append (xs ys : Bytes) : escape (xs ++ ys) = escape xs ++ escape ys :=
  List.flatMap_append

/-- Escaping at most doubles a run. -/
theorem length_escape_le (bs : Bytes) : (escape bs).length ≤ 2 * bs.length := by
  induction bs with
  | nil => simp [escape]
  | cons b bs ih =>
    have hb : (escapeByte b).length ≤ 2 := by unfold escapeByte; split <;> simp
    rw [escape_cons, List.length_append, List.length_cons]
    omega

end SignedBoot.Wire
