import Mathlib.Data.List.Basic
import Mathlib.Tactic.Common
import SignedBoot.Proofs.Wire.FrameDelimiters
import SignedBoot.Proofs.Wire.RequestCodec

/-!
# Frames built byte by byte

A frame is built in a buffer of fixed size, each byte behind the ones before it, and a byte for which
there is no room would stop the encoder. Putting the bytes in one by one is the same as putting them
in all at once, so whether some byte finds no room is a question of the length of the whole frame, and
the buffer is large enough for the frame of every request whose operands fit.

Read from the outside, what comes out is one frame: a plain `@`, the command letter and the operands
with their escapes, and a plain newline, with no plain marker in between.
-/

namespace SignedBoot.Wire

/-! ## A buffer of fixed size -/

/-- A frame under construction, in a buffer of a fixed size. -/
@[ext]
structure Draft (size : Nat) where
  bytes : Bytes
  length_le : bytes.length ≤ size

/-- Why no frame is built. -/
inductive Obstacle where
  /-- A byte found no room in the buffer. -/
  | full
  /-- There is more data than one frame carries, or its address is too high. -/
  | operands
  deriving DecidableEq, Repr

namespace Draft

variable {size : Nat}

def empty (size : Nat) : Draft size :=
  ⟨[], Nat.zero_le size⟩

/-- Puts one byte behind the others. -/
def push (d : Draft size) (b : UInt8) : Except Obstacle (Draft size) :=
  if h : (d.bytes ++ [b]).length ≤ size then .ok ⟨d.bytes ++ [b], h⟩ else .error .full

/-- Puts one data byte behind the others, behind a backslash if it is a marker. -/
def pushEscaped (d : Draft size) (b : UInt8) : Except Obstacle (Draft size) :=
  if IsMarker b then do
    let d ← d.push frameEscape
    d.push b
  else d.push b

/-- Puts data bytes behind the others, one after the other. -/
def extendEscaped (d : Draft size) (bs : Bytes) : Except Obstacle (Draft size) :=
  bs.foldlM pushEscaped d

/-- Puts a run of bytes behind the others at once. -/
def append (d : Draft size) (bs : Bytes) : Except Obstacle (Draft size) :=
  if h : (d.bytes ++ bs).length ≤ size then .ok ⟨d.bytes ++ bs, h⟩ else .error .full

theorem push_eq (d : Draft size) (b : UInt8) : d.push b = d.append [b] := rfl

theorem append_nil (d : Draft size) : d.append [] = .ok d := by
  have hfits : (d.bytes ++ []).length ≤ size := by
    rw [List.append_nil]
    exact d.length_le
  rw [append, dif_pos hfits]
  exact congrArg Except.ok (Draft.ext (List.append_nil d.bytes))

/-- Two runs fit one after the other exactly if they fit as one. -/
theorem append_append (d : Draft size) (xs ys : Bytes) :
    (d.append xs >>= fun d => d.append ys) = d.append (xs ++ ys) := by
  by_cases hfirst : (d.bytes ++ xs).length ≤ size
  · rw [append, dif_pos hfirst]
    show append ⟨d.bytes ++ xs, hfirst⟩ ys = d.append (xs ++ ys)
    simp only [append, List.append_assoc]
  · have hboth : ¬ (d.bytes ++ (xs ++ ys)).length ≤ size := by
      rw [← List.append_assoc, List.length_append]
      omega
    rw [append, dif_neg hfirst, append, dif_neg hboth]
    rfl

theorem pushEscaped_eq (d : Draft size) (b : UInt8) : d.pushEscaped b = d.append (escapeByte b) := by
  unfold pushEscaped escapeByte
  split
  · exact append_append d [frameEscape] [b]
  · rfl

theorem extendEscaped_eq (d : Draft size) (bs : Bytes) : d.extendEscaped bs = d.append (escape bs) := by
  induction bs generalizing d with
  | nil => exact (append_nil d).symm
  | cons b bs ih =>
    have hstep : d.extendEscaped (b :: bs) = d.pushEscaped b >>= fun d => d.extendEscaped bs :=
      List.foldlM_cons
    simp only [hstep, pushEscaped_eq, ih, append_append, escape_cons]

end Draft

namespace Request

/-- Puts the operands of a request behind its command letter. Only here the encoder looks at what it
was given. -/
def addOperands {size : Nat} (d : Draft size) : Request → Except Obstacle (Draft size)
  | .size field => d.extendEscaped field.toList
  | .signature field => d.extendEscaped field.toList
  | .data addr chunk =>
    if maxChunkLen < chunk.length ∨ maxAddress < addr then .error .operands
    else do
      let d ← d.pushEscaped (UInt8.ofNat chunk.length)
      let d ← d.extendEscaped (Bytes.ofNat 3 addr)
      d.extendEscaped chunk
  | .stop => .ok d

/-- Builds the frame of a request byte by byte. -/
def build (r : Request) : Except Obstacle (Draft maxEncodedLen) := do
  let d ← (Draft.empty maxEncodedLen).push frameStart
  let d ← d.pushEscaped r.opcode.toByte
  let d ← r.addOperands d
  d.push frameEnd

theorem not_fits_iff {r : Request} :
    ¬ r.Fits ↔ ∃ addr chunk, r = .data addr chunk ∧
      (maxChunkLen < chunk.length ∨ maxAddress < addr) := by
  cases r with
  | size field => simp [Fits]
  | signature field => simp [Fits]
  | data addr chunk => simp [Fits, imp_iff_not_or]
  | stop => simp [Fits]

theorem addOperands_eq {size : Nat} (d : Draft size) (r : Request) :
    r.addOperands d = if r.Fits then d.append (escape r.payload) else .error .operands := by
  cases r with
  | size field => exact d.extendEscaped_eq field.toList
  | signature field => exact d.extendEscaped_eq field.toList
  | data addr chunk =>
    have hsplit : escape (payload (.data addr chunk)) =
        escapeByte (UInt8.ofNat chunk.length) ++ (escape (Bytes.ofNat 3 addr) ++ escape chunk) := by
      rw [payload, List.cons_append, escape_cons, escape_append]
    by_cases hfits : (Request.data addr chunk).Fits
    · have hoperands : ¬ (maxChunkLen < chunk.length ∨ maxAddress < addr) :=
        not_or.2 ⟨Nat.not_lt.2 hfits.1, Nat.not_lt.2 hfits.2⟩
      rw [addOperands, if_neg hoperands, if_pos hfits]
      simp only [Draft.pushEscaped_eq, Draft.extendEscaped_eq, Draft.append_append, hsplit]
    · rw [if_neg hfits, addOperands, if_pos]
      simpa [Fits, imp_iff_not_or] using hfits
  | stop => exact d.append_nil.symm

/-- A byte finds no room only if the whole frame does not, and the operands are looked at while there
is room for anything. -/
theorem build_eq (r : Request) :
    r.build = if r.Fits then (Draft.empty maxEncodedLen).append r.frame else .error .operands := by
  -- the `@` and the letter find room in any case, so operands that do not fit fail as such
  have hfront : ∃ d, (Draft.empty maxEncodedLen).append (frameStart :: escapeByte r.opcode.toByte) =
      .ok d := by
    cases hopcode : r.opcode <;> exact ⟨_, rfl⟩
  have hframe : r.frame =
      (frameStart :: escapeByte r.opcode.toByte) ++ (escape r.payload ++ [frameEnd]) := by
    rw [frame, escape_cons, List.cons_append, List.cons_append, List.append_assoc]
  have hbuild : r.build =
      ((Draft.empty maxEncodedLen).append (frameStart :: escapeByte r.opcode.toByte) >>= fun d =>
        r.addOperands d >>= fun d => d.append [frameEnd]) := by
    rw [← List.singleton_append, ← Draft.append_append, bind_assoc]
    simp only [build, Draft.push_eq, Draft.pushEscaped_eq]
  rw [hbuild]
  by_cases hfits : r.Fits
  · simp only [addOperands_eq, if_pos hfits, Draft.append_append, hframe]
  · obtain ⟨d, hd⟩ := hfront
    simp only [addOperands_eq, if_neg hfits, hd]
    rfl

theorem build_of_fits {r : Request} (h : r.Fits) : r.build = .ok ⟨r.frame, length_frame_le h⟩ := by
  rw [build_eq, if_pos h]
  exact dif_pos (length_frame_le h)

end Request

/-! ## Reading an encoding -/

/-- The readings of one data byte in escaped form. -/
def dataReadings (b : UInt8) : List Reading :=
  if IsMarker b then [.escape, .literal b] else [.plain b]

/-- A run of bytes is one frame with the given content: between a plain `@` and a plain newline it
holds no plain one of either, and the content once escapes are taken out. -/
def IsFrameOf (content encoding : Bytes) : Prop :=
  ∃ inside, readings encoding = .plain frameStart :: inside ++ [.plain frameEnd] ∧
    (∀ r ∈ inside, ¬ r.IsDelimiter) ∧ contents inside = content

theorem readFrom_escape (bs rest : Bytes) :
    readFrom false (escape bs ++ rest) = bs.flatMap dataReadings ++ readFrom false rest := by
  induction bs with
  | nil => rfl
  | cons b bs ih =>
    rw [escape_cons, List.flatMap_cons, List.append_assoc, List.append_assoc, ← ih, escapeByte,
      dataReadings]
    split
    · rfl
    · next hb =>
      have hplain : Reading.ofByte false b = .plain b := if_neg fun h => hb (.inr (.inr h))
      rw [List.singleton_append, readFrom, hplain]
      rfl

theorem contents_flatMap_dataReadings (bs : Bytes) : contents (bs.flatMap dataReadings) = bs := by
  induction bs with
  | nil => rfl
  | cons b bs ih =>
    have hone : contents (dataReadings b) = [b] := by
      rw [dataReadings]
      split <;> rfl
    rw [List.flatMap_cons, contents_append, ih, hone, List.singleton_append]

theorem not_isDelimiter_of_mem_dataReadings {b : UInt8} {r : Reading} (h : r ∈ dataReadings b) :
    ¬ r.IsDelimiter := by
  unfold dataReadings at h
  split at h
  · simp only [List.mem_cons, List.not_mem_nil, or_false] at h
    obtain rfl | rfl := h
    · simp [Reading.IsDelimiter]
    · simp [Reading.IsDelimiter]
  · next hb =>
    obtain rfl := List.mem_singleton.1 h
    rintro (hstart | hend)
    · exact hb (.inl (Reading.plain.inj hstart))
    · exact hb (.inr (.inl (Reading.plain.inj hend)))

theorem isFrameOf_wrap (content : Bytes) : IsFrameOf content (wrap content) := by
  refine ⟨content.flatMap dataReadings, ?_, ?_, contents_flatMap_dataReadings content⟩
  · have hinside := readFrom_escape content [frameEnd]
    exact congrArg (List.cons (Reading.plain frameStart)) hinside
  · intro r hr
    obtain ⟨b, -, hr⟩ := List.mem_flatMap.1 hr
    exact not_isDelimiter_of_mem_dataReadings hr

/-! ## All requests -/

/-- A request is not encoded only if it is data, and too much of it or for too high an address. Built
byte by byte its frame always finds room, and comes out the same. What is encoded has at most the
length of the buffer and is one frame, which holds the command letter and the operands. -/
theorem encoding_is_one_frame (r : Request) :
    (r.encode? = none ↔ ∃ addr chunk, r = .data addr chunk ∧
      (maxChunkLen < chunk.length ∨ maxAddress < addr)) ∧
    r.build ≠ .error .full ∧
    r.build.toOption.map Draft.bytes = r.encode? ∧
    ∀ encoding, r.encode? = some encoding →
      encoding.length ≤ maxEncodedLen ∧ IsFrameOf (r.opcode.toByte :: r.payload) encoding := by
  rw [← Request.not_fits_iff]
  by_cases hfits : r.Fits
  · rw [Request.build_of_fits hfits, Request.encode?_eq_of_fits hfits]
    refine ⟨by simp [hfits], by simp, rfl, ?_⟩
    intro encoding h
    obtain rfl := Option.some.inj h
    exact ⟨Request.length_frame_le hfits, isFrameOf_wrap r.content⟩
  · have hnone : r.encode? = none := if_neg hfits
    rw [Request.build_eq, if_neg hfits, hnone]
    refine ⟨by simp [hfits], by simp, rfl, ?_⟩
    intro encoding h
    cases h

/-- As many markers as a frame can hold: in the address, in the data, and the length is one too. -/
def markersOnly : Request :=
  .data 0x0A0A0A (List.replicate 64 frameEscape)

theorem markers_only_is_one_frame :
    ∃ encoding, markersOnly.encode? = some encoding ∧ encoding.length = maxEncodedLen - 1 ∧
      encoding.length ≤ maxEncodedLen ∧
      IsFrameOf (0x44 :: 0x40 :: 0x0A :: 0x0A :: 0x0A :: List.replicate 64 frameEscape) encoding := by
  have hencoded : markersOnly.encode? = some markersOnly.frame :=
    Request.encode?_eq_of_fits ⟨by decide, by decide⟩
  have hlen : markersOnly.frame.length = maxEncodedLen - 1 := by decide +kernel
  obtain ⟨hle, hframe⟩ := (encoding_is_one_frame markersOnly).2.2.2 _ hencoded
  exact ⟨_, hencoded, hlen, hle, hframe⟩

end SignedBoot.Wire
