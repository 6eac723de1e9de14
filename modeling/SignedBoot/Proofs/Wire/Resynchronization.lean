import Mathlib.Data.List.Basic
import Mathlib.Tactic.Common
import SignedBoot.Proofs.Wire.FrameDelimiters
import SignedBoot.Proofs.Wire.RequestCodec

/-!
# Back in step behind noise

Whatever an assembler has been fed, the only thing that can keep it from seeing the `@` of the next
frame is a backslash still waiting for its byte. A frame ends in a newline, and no newline leaves a
backslash waiting, so noise costs one frame at most: the one whose `@` the backslash takes.
-/

namespace SignedBoot.Wire

variable {n : Nat}

/-! ## Pending escapes -/

/-- Whether a stream ends in a backslash whose byte is still to come. -/
def EndsInEscape (bs : Bytes) : Prop :=
  (readings bs).getLast? = some .escape

instance (bs : Bytes) : Decidable (EndsInEscape bs) :=
  inferInstanceAs (Decidable (_ = _))

namespace Assembler

theorem readFrom_concat (hn : 1 < n) (s : Assembler n) (bs : Bytes) (b : UInt8) :
    readFrom s.escaped (bs ++ [b]) =
      readFrom s.escaped bs ++ [Reading.ofByte (s.after bs).escaped b] := by
  induction bs generalizing s with
  | nil => rfl
  | cons c bs ih =>
    have hrest := ih (s.feed c).1
    rw [(feed_reads hn s c).1] at hrest
    rw [List.cons_append, readFrom, readFrom, hrest, after_cons]
    rfl

/-- A fresh assembler waits for a literal byte exactly if the stream so far ends in an escape. -/
theorem escaped_after_iff (hn : 1 < n) (bs : Bytes) :
    ((empty n (Nat.zero_lt_of_lt hn)).after bs).escaped = true ↔ EndsInEscape bs := by
  rcases List.eq_nil_or_concat bs with rfl | ⟨front, b, rfl⟩
  · constructor
    · intro h
      cases h
    · intro h
      cases h
  · have hlast := readFrom_concat hn (empty n (Nat.zero_lt_of_lt hn)) front b
    have hread : readings (front ++ [b]) = readFrom false front ++
        [Reading.ofByte ((empty n (Nat.zero_lt_of_lt hn)).after front).escaped b] := hlast
    rw [List.concat_eq_append, after_concat, (feed_reads hn _ b).1, EndsInEscape, hread,
      List.getLast?_concat, decide_eq_true_iff, Option.some.injEq]

/-- Only a backslash can leave an escape pending. -/
theorem escaped_after_concat (hn : 1 < n) (s : Assembler n) (bs : Bytes) {b : UInt8}
    (hb : b ≠ frameEscape) : (s.after (bs ++ [b])).escaped = false := by
  rw [after_concat, (feed_reads hn _ b).1, decide_eq_false_iff_not, Reading.ofByte, if_neg hb]
  split
  · intro h
    cases h
  · intro h
    cases h

end Assembler

/-! ## Requests behind noise -/

/-- Behind a stream that a fresh assembler was fed, a piece completes just one frame, at its last byte,
and a request is read from it. -/
def Recovers (hn : 0 < n) (before piece : Bytes) (r : Request) : Prop :=
  ∃ frame, ((Assembler.empty n hn).feedAll (before ++ piece)).2 =
      ((Assembler.empty n hn).feedAll before).2 ++ [(before.length + piece.length - 1, frame)] ∧
    frame.request? = some r

/-- Unless a backslash is waiting, a request is recovered whatever came before it. -/
theorem recovers_of_escaped_eq_false (hn : 71 ≤ n) {before encoding : Bytes} {r : Request}
    (h : ((Assembler.empty n (Nat.zero_lt_of_lt hn)).after before).escaped = false)
    (hr : r.encode? = some encoding) (hne : r.HasBytes) :
    Recovers (Nat.zero_lt_of_lt hn) before encoding r := by
  obtain ⟨hfits, rfl⟩ := Request.encode?_eq_some_iff.1 hr
  have hroom : r.content.length + 1 < n := by
    have hle : r.content.length ≤ 69 := Request.length_content_le hfits
    omega
  refine ⟨Frame.ofContent r.content, ?_, request?_ofContent hfits hne⟩
  rw [Assembler.feedAll, Assembler.go_append, Nat.zero_add]
  exact congrArg _ (Assembler.go_wrap h hroom before.length)

/-- Of two requests sent behind noise of any kind the second is always recovered, and the first is
unless the noise ends in a backslash that is still waiting for its byte. -/
theorem second_request_survives_noise (hn : 71 ≤ n) (noise : Bytes) {first second : Request}
    {encoding1 encoding2 : Bytes} (h1 : first.encode? = some encoding1) (hne1 : first.HasBytes)
    (h2 : second.encode? = some encoding2) (hne2 : second.HasBytes) :
    Recovers (Nat.zero_lt_of_lt hn) (noise ++ encoding1) encoding2 second ∧
      (¬ EndsInEscape noise → Recovers (Nat.zero_lt_of_lt hn) noise encoding1 first) := by
  have hn1 : 1 < n := by omega
  constructor
  · -- whatever the noise did to the first frame, it ends in a newline
    obtain ⟨-, rfl⟩ := Request.encode?_eq_some_iff.1 h1
    have hends : noise ++ first.frame =
        (noise ++ frameStart :: escape first.content) ++ [frameEnd] :=
      (List.append_assoc noise _ _).symm
    refine recovers_of_escaped_eq_false hn ?_ h2 hne2
    rw [hends]
    exact Assembler.escaped_after_concat hn1 _ _ (by decide)
  · intro hnoise
    refine recovers_of_escaped_eq_false hn (Bool.eq_false_iff.2 ?_) h1 hne1
    intro hescaped
    exact hnoise ((Assembler.escaped_after_iff hn1 noise).1 hescaped)

/-- The two requests behind a frame that broke off in the middle. -/
theorem two_requests_behind_broken_frame :
    (71 ≤ 71 ∧ ¬ EndsInEscape [0x40, 0x44, 0x13] ∧
      (Request.size (Bytes.field 3 0x40)).encode? = some [0x40, 0x4D, 0x00, 0x00, 0x5C, 0x40, 0x0A] ∧
      (Request.data 0x000A40 [0x0A]).encode? =
        some [0x40, 0x44, 0x01, 0x00, 0x5C, 0x0A, 0x5C, 0x40, 0x5C, 0x0A, 0x0A]) ∧
      Recovers (show 0 < 71 by decide)
        ([0x40, 0x44, 0x13] ++ [0x40, 0x4D, 0x00, 0x00, 0x5C, 0x40, 0x0A])
        [0x40, 0x44, 0x01, 0x00, 0x5C, 0x0A, 0x5C, 0x40, 0x5C, 0x0A, 0x0A]
        (.data 0x000A40 [0x0A]) ∧
      Recovers (show 0 < 71 by decide) [0x40, 0x44, 0x13]
        [0x40, 0x4D, 0x00, 0x00, 0x5C, 0x40, 0x0A] (.size (Bytes.field 3 0x40)) := by
  have hnoise : ¬ EndsInEscape [0x40, 0x44, 0x13] := by decide
  have h1 : (Request.size (Bytes.field 3 0x40)).encode? =
      some [0x40, 0x4D, 0x00, 0x00, 0x5C, 0x40, 0x0A] := by decide
  have h2 : (Request.data 0x000A40 [0x0A]).encode? =
      some [0x40, 0x44, 0x01, 0x00, 0x5C, 0x0A, 0x5C, 0x40, 0x5C, 0x0A, 0x0A] := by decide
  obtain ⟨hsecond, hfirst⟩ := second_request_survives_noise (Nat.le_refl 71) [0x40, 0x44, 0x13]
    h1 trivial h2 (List.cons_ne_nil _ _)
  exact ⟨⟨Nat.le_refl 71, hnoise, h1, h2⟩, hsecond, hfirst hnoise⟩

-- a backslash that is still waiting takes the `@` of the first frame, which is lost
example :
    ((Assembler.empty 71).feedAll ([0x13, 0x5C] ++ [0x40, 0x58, 0x0A] ++ [0x40, 0x58, 0x0A])).2 =
      [(7, ⟨some 0x58, []⟩)] := by
  decide

end SignedBoot.Wire
