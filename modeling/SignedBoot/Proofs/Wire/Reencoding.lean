import Mathlib.Data.List.Basic
import Mathlib.Tactic.Common
import SignedBoot.Proofs.Wire.RequestCodec

/-!
# Requests written again

The parser is more generous than the encoder: it ignores what follows the declared data, and it takes
a length of zero as long as some byte follows that it can ignore. The encoder writes just the data. So
a request that was read can be written again and is read back from its new frame, with one exception:
without data there is nothing left behind the header, and such a frame the parser refuses.
-/

namespace SignedBoot.Wire

open Layout

namespace Request

/-- Whether a request has no more data than one encoded frame carries. -/
def WithinChunk : Request → Prop
  | data _ chunk => chunk.length ≤ maxChunkLen
  | _ => True

/-- Whether the device can be brought to read a request. -/
def Readable (r : Request) : Prop :=
  ∃ opcode payload, parse? opcode payload = some r

/-- Fed to a fresh assembler, an encoding completes this frame with its last byte, and no other. -/
def Completes (encoding : Bytes) (frame : Frame) : Prop :=
  ((Assembler.empty frameCapacity frameCapacity_pos).feedAll encoding).2 =
    [(encoding.length - 1, frame)]

/-- Whether a request travels as it is: it is encoded, and read from the frame that its encoding
completes. -/
def Travels (r : Request) : Prop :=
  ∃ encoding frame, r.encode? = some encoding ∧ Completes encoding frame ∧ frame.request? = some r

/-! ## One request -/

theorem Completes.unique {encoding : Bytes} {frame frame' : Frame} (h : Completes encoding frame)
    (h' : Completes encoding frame') : frame = frame' := by
  have heq : [(encoding.length - 1, frame)] = [(encoding.length - 1, frame')] := h.symm.trans h'
  cases heq
  rfl

theorem fits_of_parse? {opcode : UInt8} {payload : Bytes} {r : Request}
    (h : parse? opcode payload = some r) (hchunk : r.WithinChunk) : r.Fits := by
  cases r with
  | size field => trivial
  | signature field => trivial
  | data addr chunk => exact ⟨hchunk, (bounds_of_parse? h).1⟩
  | stop => trivial

theorem withinChunk_of_fits {r : Request} (h : r.Fits) : r.WithinChunk := by
  cases r with
  | size field => trivial
  | signature field => trivial
  | data addr chunk => exact h.1
  | stop => trivial

theorem completes_frame {r : Request} (h : r.Fits) :
    Completes r.frame (Frame.ofContent r.content) := by
  have hgo := Assembler.go_wrap (s := Assembler.empty frameCapacity) rfl (length_content_lt h) 0
  rw [Nat.zero_add] at hgo
  exact hgo

/-- Without data the frame ends with the header, and no request is read from it. -/
theorem request?_ofContent_eq_none {r : Request} (h : ¬ r.HasBytes) :
    (Frame.ofContent r.content).request? = none := by
  cases r with
  | size field => exact absurd trivial h
  | signature field => exact absurd trivial h
  | data addr chunk =>
    obtain rfl : chunk = [] := not_not.1 h
    rfl
  | stop => exact absurd trivial h

/-- What travels as it is fits into a frame, and has at least one byte where data is meant. -/
theorem travels_iff {r : Request} : r.Travels ↔ r.Fits ∧ r.HasBytes := by
  constructor
  · rintro ⟨encoding, frame, hencoding, hfed, hread⟩
    obtain ⟨hfits, rfl⟩ := encode?_eq_some_iff.1 hencoding
    obtain rfl := (completes_frame hfits).unique hfed
    refine ⟨hfits, ?_⟩
    by_contra hempty
    rw [request?_ofContent_eq_none hempty] at hread
    cases hread
  · rintro ⟨hfits, hne⟩
    exact ⟨r.frame, Frame.ofContent r.content, encode?_eq_of_fits hfits, completes_frame hfits,
      request?_ofContent hfits hne⟩

theorem readable_of_travels {r : Request} (h : r.Travels) : r.Readable := by
  obtain ⟨-, frame, -, -, hread⟩ := h
  obtain ⟨opcode, -, hparse⟩ := Option.bind_eq_some_iff.1 hread
  exact ⟨opcode, frame.payload, hparse⟩

end Request

open Request

/-! ## All requests -/

/-- A request that was read, with no more data than one frame carries, is encoded, and its encoding
completes one frame, with its last byte. From that frame the request is read back if it is not a data
request without data, and then no request is read from it. So the requests that travel as they are are
those that the device can read, with no more data than one frame carries but with some where data is
meant. -/
theorem readable_requests_travel :
    (∀ opcode payload r, parse? opcode payload = some r → r.WithinChunk →
      ∃ encoding frame, r.encode? = some encoding ∧ Completes encoding frame ∧
        (r.HasBytes → frame.request? = some r) ∧ (¬ r.HasBytes → frame.request? = none)) ∧
    ∀ r : Request, r.Travels ↔ r.Readable ∧ r.WithinChunk ∧ r.HasBytes := by
  constructor
  · intro opcode payload r hparse hchunk
    have hfits := fits_of_parse? hparse hchunk
    exact ⟨r.frame, Frame.ofContent r.content, encode?_eq_of_fits hfits, completes_frame hfits,
      request?_ofContent hfits, request?_ofContent_eq_none⟩
  · intro r
    constructor
    · intro htravels
      obtain ⟨hfits, hne⟩ := travels_iff.1 htravels
      exact ⟨readable_of_travels htravels, withinChunk_of_fits hfits, hne⟩
    · rintro ⟨⟨opcode, payload, hparse⟩, hchunk, hne⟩
      exact travels_iff.2 ⟨fits_of_parse? hparse hchunk, hne⟩

/-- A data request of one byte, read from a frame that carries three. -/
theorem trimmed_request_travels :
    parse? 0x44 [0x01, 0x00, 0x00, 0x40, 0x01, 0x02, 0x03] = some (.data 0x40 [0x01]) ∧
      (Request.data 0x40 [0x01]).WithinChunk ∧
      ∃ encoding frame, (Request.data 0x40 [0x01]).encode? = some encoding ∧
        Completes encoding frame ∧ frame.request? = some (.data 0x40 [0x01]) := by
  have hparse : parse? 0x44 [0x01, 0x00, 0x00, 0x40, 0x01, 0x02, 0x03] =
      some (.data 0x40 [0x01]) := by decide
  have hchunk : (Request.data 0x40 [0x01]).WithinChunk := show 1 ≤ maxChunkLen by decide
  obtain ⟨encoding, frame, hencoding, hfed, hread, -⟩ :=
    readable_requests_travel.1 _ _ _ hparse hchunk
  exact ⟨hparse, hchunk, encoding, frame, hencoding, hfed, hread (List.cons_ne_nil _ _)⟩

/-- A length of zero with one byte behind the header is read as a request without data, which does not
travel. -/
theorem empty_chunk_does_not_travel :
    ¬ ∀ opcode payload r, parse? opcode payload = some r → r.WithinChunk → r.Travels := by
  intro h
  have hparse : parse? 0x44 [0x00, 0x00, 0x00, 0x40, 0xFF] = some (.data 0x40 []) := by decide
  obtain ⟨encoding, frame, hencoding, hfed, hread⟩ := h _ _ _ hparse (Nat.zero_le _)
  have hwritten : (Request.data 0x40 []).encode? =
      some [0x40, 0x44, 0x00, 0x00, 0x00, 0x5C, 0x40, 0x0A] := by decide
  rw [hwritten] at hencoding
  cases hencoding
  have hframe : Completes [0x40, 0x44, 0x00, 0x00, 0x00, 0x5C, 0x40, 0x0A]
      ⟨some 0x44, [0x00, 0x00, 0x00, 0x40]⟩ := by
    show ((Assembler.empty frameCapacity frameCapacity_pos).feedAll _).2 = _
    decide
  obtain rfl := hframe.unique hfed
  cases hread

end SignedBoot.Wire
