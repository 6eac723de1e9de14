import Mathlib.Data.List.Basic
import Mathlib.Tactic.Common
import SignedBoot.Wire.Assembler

/-!
# Frames out of a stream of bytes

What an assembler hands out while it is fed a stream, and the state it is in afterwards, for streams
put together from smaller ones. `feed_reads` says once what a received byte does, by how it is read.
The main statement is that the escaped form of some content between `@` and a newline makes an
assembler without a pending escape hand out one frame with exactly that content, at the last byte,
and leaves it idle.
-/

namespace SignedBoot.Wire

/-! ## Reading a byte -/

/-- What a byte of a stream stands for when escapes are read from left to right. -/
inductive Reading where
  /-- A backslash that makes the next byte literal. -/
  | escape
  /-- A byte without a backslash before it. -/
  | plain (b : UInt8)
  /-- A byte behind a backslash, which is data whatever it is. -/
  | literal (b : UInt8)
  deriving DecidableEq, Repr

def Reading.ofByte (pending : Bool) (b : UInt8) : Reading :=
  if pending then .literal b else if b = frameEscape then .escape else .plain b

/-- One more byte behind those collected; the byte that fills the buffer empties it. -/
def push (n : Nat) (held : Bytes) (b : UInt8) : Bytes :=
  if held.length + 1 < n then held ++ [b] else []

theorem push_of_lt {n : Nat} {held : Bytes} {b : UInt8} (h : held.length + 1 < n) :
    push n held b = held ++ [b] :=
  if_pos h

/-- The bytes collected after one more byte of the stream. -/
def gather (n : Nat) (held : Bytes) : Reading → Bytes
  | .escape => held
  | .literal b => push n held b
  | .plain b =>
    if b = frameStart then [frameStart]
    else if b = frameEnd ∧ held.head? = some frameStart then []
    else push n held b

namespace Assembler

variable {n : Nat}

/-- The frames handed out while a run of bytes is fed. -/
def frames (s : Assembler n) (bs : Bytes) : List Frame :=
  (s.feedAll bs).2.map Prod.snd

/-- The assembler after a run of bytes. -/
def after (s : Assembler n) (bs : Bytes) : Assembler n :=
  (s.feedAll bs).1

/-! ## Streams byte by byte -/

/-- The positions of frames depend on where a run starts, the frames themselves do not. -/
theorem go_position (s : Assembler n) (i j : Nat) (bs : Bytes) :
    (feedAll.go s i bs).1 = (feedAll.go s j bs).1 ∧
      (feedAll.go s i bs).2.map Prod.snd = (feedAll.go s j bs).2.map Prod.snd := by
  induction bs generalizing s i j with
  | nil => exact ⟨rfl, rfl⟩
  | cons b bs ih =>
    rw [feedAll.go, feedAll.go]
    rcases s.feed b with ⟨s', _ | frame⟩
    · exact ih s' (i + 1) (j + 1)
    · have hrest := ih s' (i + 1) (j + 1)
      exact ⟨hrest.1, congrArg (frame :: ·) hrest.2⟩

@[simp]
theorem frames_nil (s : Assembler n) : s.frames [] = [] := rfl

theorem frames_cons (s : Assembler n) (b : UInt8) (bs : Bytes) :
    s.frames (b :: bs) = (s.feed b).2.toList ++ (s.feed b).1.frames bs := by
  rw [frames, feedAll, feedAll.go]
  rcases s.feed b with ⟨s', _ | frame⟩
  · exact (go_position s' 1 0 bs).2
  · exact congrArg (frame :: ·) (go_position s' 1 0 bs).2

theorem after_cons (s : Assembler n) (b : UInt8) (bs : Bytes) :
    s.after (b :: bs) = (s.feed b).1.after bs := by
  rw [after, feedAll, feedAll.go]
  rcases s.feed b with ⟨s', _ | frame⟩
  · exact (go_position s' 1 0 bs).1
  · exact (go_position s' 1 0 bs).1

theorem frames_append (s : Assembler n) (xs ys : Bytes) :
    s.frames (xs ++ ys) = s.frames xs ++ (s.after xs).frames ys := by
  induction xs generalizing s with
  | nil => rfl
  | cons x xs ih => rw [List.cons_append, frames_cons, frames_cons, ih, after_cons, List.append_assoc]

theorem after_append (s : Assembler n) (xs ys : Bytes) :
    s.after (xs ++ ys) = (s.after xs).after ys := by
  induction xs generalizing s with
  | nil => rfl
  | cons x xs ih => rw [List.cons_append, after_cons, after_cons, ih]

theorem after_concat (s : Assembler n) (bs : Bytes) (b : UInt8) :
    s.after (bs ++ [b]) = ((s.after bs).feed b).1 := by
  rw [after_append, after_cons]
  rfl

theorem frames_concat (s : Assembler n) (bs : Bytes) (b : UInt8) :
    s.frames (bs ++ [b]) = s.frames bs ++ ((s.after bs).feed b).2.toList := by
  rw [frames_append, frames_cons, frames_nil, List.append_nil]

theorem go_append (s : Assembler n) (i : Nat) (xs ys : Bytes) :
    (feedAll.go s i (xs ++ ys)).2 =
      (feedAll.go s i xs).2 ++ (feedAll.go (s.after xs) (i + xs.length) ys).2 := by
  induction xs generalizing s i with
  | nil => rfl
  | cons x xs ih =>
    have hnext : i + (x :: xs).length = i + 1 + xs.length := by
      rw [List.length_cons]
      omega
    rw [List.cons_append, feedAll.go, feedAll.go, after_cons, hnext]
    rcases s.feed x with ⟨s', _ | frame⟩
    · exact ih s' (i + 1)
    · exact congrArg ((i, frame) :: ·) (ih s' (i + 1))

/-- A run that completes nothing up to its last byte completes its frame there. -/
theorem go_concat {s : Assembler n} {bs : Bytes} {b : UInt8} {frame : Frame}
    (hquiet : s.frames bs = []) (hlast : s.frames (bs ++ [b]) = [frame]) (i : Nat) :
    (feedAll.go s i (bs ++ [b])).2 = [(i + bs.length, frame)] := by
  have hnone : (feedAll.go s i bs).2 = [] := by
    apply List.map_eq_nil_iff.1
    rw [(go_position s i 0 bs).2]
    exact hquiet
  rw [frames_append, hquiet, List.nil_append, frames_cons, frames_nil, List.append_nil] at hlast
  rw [go_append, hnone, List.nil_append, feedAll.go]
  rcases hfeed : (s.after bs).feed b with ⟨s', _ | completed⟩
  · rw [hfeed] at hlast
    cases hlast
  · rw [hfeed] at hlast
    cases hlast
    rfl

/-! ## One byte -/

theorem length_collected (s : Assembler n) : s.collected.length = s.index := by
  rw [collected, List.length_take, Vector.length_toList]
  exact Nat.min_eq_left (Nat.le_of_lt s.index_lt)

theorem collected_store (s : Assembler n) (b : UInt8) :
    (s.store b).collected = push n s.collected b := by
  have hlen : s.index < s.buffer.toList.length := by
    rw [Vector.length_toList]
    exact s.index_lt
  rw [push, length_collected]
  unfold Assembler.store
  split
  · rw [collected, collected, Vector.toList_set,
      List.take_succ_eq_append_getElem (by rw [List.length_set]; exact hlen),
      List.getElem_set_self, List.take_set_of_le (Nat.le_refl _)]
  · rfl

theorem escaped_store (s : Assembler n) (b : UInt8) : (s.store b).escaped = false := by
  unfold Assembler.store
  split <;> rfl

/-- Whether a frame is open is read off the first byte of the buffer. -/
theorem head?_collected (s : Assembler n) (hn : 0 < n) (b : UInt8) :
    s.collected.head? = some b ↔ 0 < s.index ∧ s.buffer[0] = b := by
  by_cases hpos : 0 < s.index
  · have hlen : 0 < s.buffer.toList.length := by
      rw [Vector.length_toList]
      exact hn
    rw [collected, List.head?_eq_getElem?, List.getElem?_take_of_lt hpos,
      List.getElem?_eq_getElem hlen, Vector.getElem_toList, Option.some.injEq]
    exact ⟨fun h => ⟨hpos, h⟩, fun h => h.2⟩
  · have hnone : s.collected = [] := by
      rw [← List.length_eq_zero_iff, length_collected]
      omega
    rw [hnone]
    constructor
    · intro h
      cases h
    · intro h
      exact absurd h.1 hpos

/-- Whatever has been collected, an `@` without a backslash starts over. -/
theorem feed_start {s : Assembler n} (h : s.escaped = false) (hn : 1 < n) :
    (s.feed frameStart).1.escaped = false ∧ (s.feed frameStart).1.collected = [frameStart] ∧
      (s.feed frameStart).2 = none := by
  by_cases hpos : 0 < s.index
  · have hlen : 0 < s.buffer.toList.length := by
      rw [Vector.length_toList]
      omega
    have hfeed : s.feed frameStart =
        (⟨s.buffer.set 0 frameStart (by omega), 1, false, hn⟩, none) := by
      rw [feed, if_neg (by simp [h]), if_neg (by decide), dif_pos ⟨rfl, hpos⟩]
    rw [hfeed]
    refine ⟨rfl, ?_, rfl⟩
    rw [collected, Vector.toList_set, List.take_one, List.head?_eq_getElem?,
      List.getElem?_set_self hlen]
    rfl
  · have hfeed : s.feed frameStart = (s.store frameStart, none) := by
      rw [feed, if_neg (by simp [h]), if_neg (by decide), dif_neg (fun h => absurd h.2 hpos),
        if_neg (fun h => absurd h.1 (by decide))]
    have hempty : s.collected = [] := by
      rw [← List.length_eq_zero_iff, length_collected]
      omega
    rw [hfeed]
    refine ⟨s.escaped_store frameStart, ?_, rfl⟩
    rw [collected_store, hempty]
    exact push_of_lt hn

/-- A received byte acts on what is collected by how it is read, and it completes a frame only as a
plain newline while an `@` stands first. -/
theorem feed_reads (hn : 1 < n) (s : Assembler n) (b : UInt8) :
    (s.feed b).1.escaped = decide (Reading.ofByte s.escaped b = .escape) ∧
      (s.feed b).1.collected = gather n s.collected (Reading.ofByte s.escaped b) ∧
      (s.feed b).2 =
        if Reading.ofByte s.escaped b = .plain frameEnd ∧ s.collected.head? = some frameStart then
          some s.frame
        else none := by
  by_cases hescaped : s.escaped = true
  · have hread : Reading.ofByte s.escaped b = .literal b := by rw [Reading.ofByte, if_pos hescaped]
    have hfeed : s.feed b = (s.store b, none) := by rw [feed, if_pos hescaped]
    rw [hread, hfeed]
    exact ⟨s.escaped_store b, s.collected_store b, rfl⟩
  by_cases hescape : b = frameEscape
  · have hread : Reading.ofByte s.escaped b = .escape := by
      rw [Reading.ofByte, if_neg hescaped, if_pos hescape]
    have hfeed : s.feed b = ({ s with escaped := true }, none) := by
      rw [feed, if_neg hescaped, if_pos hescape]
    rw [hread, hfeed]
    exact ⟨rfl, rfl, rfl⟩
  have hread : Reading.ofByte s.escaped b = .plain b := by
    rw [Reading.ofByte, if_neg hescaped, if_neg hescape]
  rw [hread]
  by_cases hstart : b = frameStart
  · obtain rfl := hstart
    obtain ⟨hplain, hcollected, hnone⟩ := feed_start (Bool.eq_false_iff.2 hescaped) hn
    rw [hplain, hcollected, hnone]
    exact ⟨rfl, rfl, rfl⟩
  have hpos : 0 < n := Nat.zero_lt_of_lt hn
  by_cases hend : b = frameEnd ∧ s.collected.head? = some frameStart
  · have hfeed : s.feed b = (s.clear, some s.frame) := by
      rw [feed, if_neg hescaped, if_neg hescape, dif_neg (fun h => hstart h.1),
        if_pos ⟨hend.1, (s.head?_collected hpos frameStart).1 hend.2⟩]
    rw [hfeed, if_pos ⟨congrArg _ hend.1, hend.2⟩, gather, if_neg hstart, if_pos hend]
    exact ⟨rfl, rfl, rfl⟩
  · have hfeed : s.feed b = (s.store b, none) := by
      rw [feed, if_neg hescaped, if_neg hescape, dif_neg (fun h => hstart h.1),
        if_neg (fun h => hend ⟨h.1, (s.head?_collected hpos frameStart).2 h.2⟩)]
    have hopen : ¬ (Reading.plain b = .plain frameEnd ∧ s.collected.head? = some frameStart) := by
      intro h
      exact hend ⟨Reading.plain.inj h.1, h.2⟩
    rw [hfeed, if_neg hopen, gather, if_neg hstart, if_neg hend]
    exact ⟨s.escaped_store b, s.collected_store b, rfl⟩

/-! ## One frame -/

/-- Nothing is collected and no escape is pending. -/
def Idle (s : Assembler n) : Prop :=
  s.index = 0 ∧ s.escaped = false

/-- The given bytes are collected and no escape is pending. -/
def Holds (s : Assembler n) (bs : Bytes) : Prop :=
  s.collected = bs ∧ s.index = bs.length ∧ s.escaped = false

theorem holds_of_collected {s : Assembler n} {bs : Bytes} (h : s.collected = bs)
    (hescaped : s.escaped = false) : s.Holds bs := by
  refine ⟨h, ?_, hescaped⟩
  rw [← h, length_collected]

/-- A byte behind a backslash is collected whatever it is. -/
theorem Holds.feed_escaped {s : Assembler n} {bs : Bytes} (h : s.Holds bs)
    (hroom : bs.length + 1 < n) (b : UInt8) :
    s.frames [frameEscape, b] = [] ∧ (s.after [frameEscape, b]).Holds (bs ++ [b]) := by
  have hn : 1 < n := by omega
  obtain ⟨hcollected, -, hescaped⟩ := h
  obtain ⟨hpending, hkept, hquiet⟩ := feed_reads hn s frameEscape
  rw [hescaped] at hpending hkept hquiet
  obtain ⟨hplain, hstored, hnone⟩ := feed_reads hn (s.feed frameEscape).1 b
  rw [hpending] at hplain hstored hnone
  rw [frames_cons, after_cons, frames_cons, after_cons, hquiet, hnone]
  refine ⟨rfl, holds_of_collected ?_ hplain⟩
  rw [hkept, hcollected] at hstored
  exact hstored.trans (push_of_lt hroom)

theorem Holds.feed_plain {s : Assembler n} {bs : Bytes} (h : s.Holds bs)
    (hroom : bs.length + 1 < n) {b : UInt8} (hb : ¬ IsMarker b) :
    s.frames [b] = [] ∧ (s.after [b]).Holds (bs ++ [b]) := by
  have hn : 1 < n := by omega
  obtain ⟨hstart, hend, hescape⟩ : b ≠ frameStart ∧ b ≠ frameEnd ∧ b ≠ frameEscape := by
    simpa [IsMarker] using hb
  have hread : Reading.ofByte false b = .plain b := if_neg hescape
  obtain ⟨hcollected, -, hescaped⟩ := h
  obtain ⟨hplain, hstored, hnone⟩ := feed_reads hn s b
  rw [hescaped, hread] at hplain hstored hnone
  rw [gather, if_neg hstart, if_neg (fun h => hend h.1), hcollected, push_of_lt hroom] at hstored
  rw [if_neg (fun h => hend (Reading.plain.inj h.1))] at hnone
  rw [frames_cons, after_cons, hnone]
  exact ⟨rfl, holds_of_collected hstored hplain⟩

/-- Escaped content is collected without its escapes and completes nothing. -/
theorem Holds.feed_escape {s : Assembler n} {done : Bytes} (h : s.Holds done) (bs : Bytes)
    (hroom : done.length + bs.length < n) :
    s.frames (escape bs) = [] ∧ (s.after (escape bs)).Holds (done ++ bs) := by
  induction bs generalizing s done with
  | nil =>
    rw [List.append_nil]
    exact ⟨rfl, h⟩
  | cons b bs ih =>
    rw [List.length_cons] at hroom
    have hstep : s.frames (escapeByte b) = [] ∧ (s.after (escapeByte b)).Holds (done ++ [b]) := by
      rw [escapeByte]
      split
      · exact h.feed_escaped (by omega) b
      · next hb => exact h.feed_plain (by omega) hb
    have hrest := ih hstep.2 (by rw [List.length_append, List.length_singleton]; omega)
    rw [escape_cons, frames_append, after_append, hstep.1, hrest.1]
    refine ⟨rfl, ?_⟩
    rw [List.append_assoc] at hrest
    exact hrest.2

theorem Holds.feed_end {s : Assembler n} {content : Bytes} (h : s.Holds (frameStart :: content)) :
    s.frames [frameEnd] = [s.frame] ∧ (s.after [frameEnd]).Idle := by
  obtain ⟨hcollected, hindex, hescaped⟩ := h
  have hn : 1 < n := by
    have hlt := s.index_lt
    rw [hindex, List.length_cons] at hlt
    omega
  obtain ⟨hplain, hemptied, hcompleted⟩ := feed_reads hn s frameEnd
  rw [hescaped] at hplain hemptied hcompleted
  rw [hcollected] at hemptied hcompleted
  rw [frames_cons, after_cons, hcompleted]
  refine ⟨rfl, ?_, hplain⟩
  show (s.feed frameEnd).1.index = 0
  rw [← length_collected, hemptied]
  rfl

end Assembler

/-! ## Wrapped content -/

/-- Content as it travels: escaped, between `@` and a newline. -/
def wrap (content : Bytes) : Bytes :=
  frameStart :: escape content ++ [frameEnd]

/-- The frame with the given content. -/
def Frame.ofContent : Bytes → Frame
  | [] => ⟨none, []⟩
  | opcode :: payload => ⟨some opcode, payload⟩

theorem Assembler.frame_of_collected {n : Nat} {s : Assembler n} {content : Bytes}
    (h : s.collected = frameStart :: content) : s.frame = Frame.ofContent content := by
  rw [Assembler.frame, h]
  cases content <;> rfl

/-- Wrapped content makes an assembler without a pending escape hand out one frame with that content,
at the last byte, and leaves it idle. -/
theorem Assembler.feed_wrap {n : Nat} {s : Assembler n} (h : s.escaped = false) {content : Bytes}
    (hroom : content.length + 1 < n) :
    s.frames (frameStart :: escape content) = [] ∧
      s.frames (wrap content) = [Frame.ofContent content] ∧ (s.after (wrap content)).Idle := by
  obtain ⟨hplain, hcollected, hnone⟩ := Assembler.feed_start h (by omega)
  have hopen := Assembler.holds_of_collected hcollected hplain
  obtain ⟨hquiet, hfull⟩ := hopen.feed_escape content (by simpa [Nat.add_comm] using hroom)
  obtain ⟨hlast, hidle⟩ := Assembler.Holds.feed_end hfull
  have hframe : ((s.feed frameStart).1.after (escape content)).frame = Frame.ofContent content :=
    Assembler.frame_of_collected hfull.1
  have hbody : s.frames (frameStart :: escape content) = [] := by
    rw [Assembler.frames_cons, hnone, hquiet]
    rfl
  refine ⟨hbody, ?_, ?_⟩
  · rw [wrap, Assembler.frames_append, hbody, Assembler.after_cons, hlast, hframe, List.nil_append]
  · rw [wrap, Assembler.after_append, Assembler.after_cons s]
    exact hidle

/-! ## Streams of wrapped contents -/

/-- A stream hands out the frames of each of its front parts first. -/
theorem Assembler.frames_prefix {n : Nat} (s : Assembler n) {xs ys : Bytes} (h : xs <+: ys) :
    s.frames xs <+: s.frames ys := by
  obtain ⟨rest, rfl⟩ := h
  rw [Assembler.frames_append]
  exact List.prefix_append _ _

/-- Up to its last byte wrapped content completes nothing. -/
theorem Assembler.feed_in_wrap {n : Nat} {s : Assembler n} (h : s.escaped = false)
    {content before rest : Bytes} {b : UInt8} (hroom : content.length + 1 < n)
    (hwrap : wrap content = before ++ b :: rest) (hrest : rest ≠ []) :
    (s.after before).feed b = (s.after (before ++ [b]), none) := by
  obtain ⟨hquiet, -, -⟩ := Assembler.feed_wrap h hroom
  have hfront : before ++ [b] <+: frameStart :: escape content := by
    obtain ⟨rest, last, rfl⟩ := (List.eq_nil_or_concat rest).resolve_left hrest
    rw [List.concat_eq_append] at hwrap
    have hbody : frameStart :: escape content = before ++ b :: rest := by
      have hends : frameStart :: escape content ++ [frameEnd] = before ++ b :: rest ++ [last] := by
        rw [List.append_assoc]
        exact hwrap
      exact (List.append_inj' hends rfl).1
    rw [hbody, List.append_cons before b rest]
    exact List.prefix_append _ _
  have hnone := Assembler.frames_prefix s hfront
  rw [hquiet, List.prefix_nil, Assembler.frames_concat, List.append_eq_nil_iff] at hnone
  refine Prod.ext (Assembler.after_concat s before b).symm ?_
  exact Option.toList_eq_nil_iff.1 hnone.2

/-- The last byte of wrapped content completes its frame. -/
theorem Assembler.feed_last_of_wrap {n : Nat} {s : Assembler n} (h : s.escaped = false)
    {content before : Bytes} {b : UInt8} (hroom : content.length + 1 < n)
    (hwrap : wrap content = before ++ [b]) :
    (s.after before).feed b = (s.after (wrap content), some (Frame.ofContent content)) := by
  obtain ⟨hquiet, hone, -⟩ := Assembler.feed_wrap h hroom
  have hbody : frameStart :: escape content = before := (List.append_inj' hwrap rfl).1
  rw [hwrap, Assembler.frames_concat, ← hbody, hquiet, List.nil_append, hbody] at hone
  rw [hwrap]
  refine Prod.ext (Assembler.after_concat s before b).symm ?_
  exact Option.toList_eq_singleton_iff.1 hone

/-- Where the last byte of each piece stands when pieces are laid end to end from `start` on. -/
def lastPositions (start : Nat) : List Bytes → List Nat
  | [] => []
  | piece :: pieces => (start + piece.length - 1) :: lastPositions (start + piece.length) pieces

theorem length_lastPositions (start : Nat) (pieces : List Bytes) :
    (lastPositions start pieces).length = pieces.length := by
  induction pieces generalizing start with
  | nil => rfl
  | cons piece pieces ih => rw [lastPositions, List.length_cons, List.length_cons, ih]

/-- A stream of wrapped contents completes the frame of each of them at its last byte, and no other
frame. -/
theorem Assembler.go_wraps {n : Nat} {s : Assembler n} (h : s.escaped = false)
    {contents : List Bytes} (hroom : ∀ content ∈ contents, content.length + 1 < n) (i : Nat) :
    (feedAll.go s i (contents.flatMap wrap)).2 =
      (lastPositions i (contents.map wrap)).zip (contents.map Frame.ofContent) := by
  induction contents generalizing s i with
  | nil => rfl
  | cons content contents ih =>
    obtain ⟨hquiet, hone, hidle⟩ := Assembler.feed_wrap h (hroom content List.mem_cons_self)
    have hlast : i + (wrap content).length - 1 = i + (frameStart :: escape content).length := by
      rw [wrap, List.length_append, List.length_singleton]
      omega
    have hfirst : (feedAll.go s i (wrap content)).2 =
        [(i + (wrap content).length - 1, Frame.ofContent content)] := by
      rw [hlast]
      exact Assembler.go_concat hquiet hone i
    have hrest := ih hidle.2 (fun c hc => hroom c (List.mem_cons_of_mem _ hc))
      (i + (wrap content).length)
    rw [List.flatMap_cons, Assembler.go_append, hfirst, hrest]
    rfl

theorem Assembler.go_wrap {n : Nat} {s : Assembler n} (h : s.escaped = false) {content : Bytes}
    (hroom : content.length + 1 < n) (i : Nat) :
    (feedAll.go s i (wrap content)).2 =
      [(i + (wrap content).length - 1, Frame.ofContent content)] := by
  have hone : ∀ c ∈ [content], c.length + 1 < n := by
    intro c hc
    rwa [List.mem_singleton.1 hc]
  have hwraps := Assembler.go_wraps h hone i
  rw [List.flatMap_singleton] at hwraps
  exact hwraps

/-- A stream of wrapped contents hands out one frame for each of them. -/
theorem Assembler.feed_wraps {n : Nat} {s : Assembler n} (h : s.escaped = false)
    {contents : List Bytes} (hroom : ∀ content ∈ contents, content.length + 1 < n) :
    s.frames (contents.flatMap wrap) = contents.map Frame.ofContent := by
  have hlen : (contents.map Frame.ofContent).length =
      (lastPositions 0 (contents.map wrap)).length := by
    rw [length_lastPositions, List.length_map, List.length_map]
  rw [Assembler.frames, Assembler.feedAll, Assembler.go_wraps h hroom,
    List.map_snd_zip (Nat.le_of_eq hlen)]

/-- Every newline in escaped content stands behind a backslash. -/
theorem exists_escape_before_end {content before rest : Bytes}
    (h : escape content = before ++ frameEnd :: rest) :
    ∃ front, before = front ++ [frameEscape] := by
  induction content generalizing before with
  | nil => cases before <;> cases h
  | cons b bs ih =>
    rw [escape_cons, escapeByte] at h
    split at h
    · match before with
      | [] => cases h
      | [x] =>
        cases h
        exact ⟨[], rfl⟩
      | x :: y :: before =>
        obtain ⟨front, rfl⟩ := ih (List.cons.inj (List.cons.inj h).2).2
        exact ⟨x :: y :: front, rfl⟩
    · next hb =>
      match before with
      | [] =>
        have hend : b = frameEnd := (List.cons.inj h).1
        exact absurd (Or.inr (Or.inl hend)) hb
      | x :: before =>
        obtain ⟨front, rfl⟩ := ih (List.cons.inj h).2
        exact ⟨x :: front, rfl⟩

/-- A newline without a backslash before it ends the wrapped content it stands in. -/
theorem eq_nil_of_wrap_eq {content before rest : Bytes} {b : UInt8} (hb : b ≠ frameEscape)
    (h : wrap content = before ++ b :: frameEnd :: rest) : rest = [] := by
  rcases List.eq_nil_or_concat rest with hnil | ⟨rest, last, rfl⟩
  · exact hnil
  have hbody : frameStart :: escape content = before ++ b :: frameEnd :: rest := by
    have hinit := congrArg List.dropLast h
    rw [wrap, List.dropLast_concat, List.concat_eq_append] at hinit
    have hlast : before ++ b :: frameEnd :: (rest ++ [last]) =
        (before ++ b :: frameEnd :: rest) ++ [last] := by
      simp only [List.append_assoc, List.cons_append]
    rw [hinit, hlast, List.dropLast_concat]
  cases before with
  | nil =>
    have hcontent := (List.cons.inj hbody).2
    have hescaped : escape content = [] ++ frameEnd :: rest := hcontent
    obtain ⟨front, hfront⟩ := exists_escape_before_end hescaped
    exact absurd hfront (by simp)
  | cons x before =>
    have htail : escape content = before ++ b :: frameEnd :: rest := (List.cons.inj hbody).2
    have hcontent : escape content = (before ++ [b]) ++ frameEnd :: rest := by
      rw [htail, List.append_assoc, List.singleton_append]
    obtain ⟨front, hfront⟩ := exists_escape_before_end hcontent
    exact absurd (List.append_inj' hfront rfl).2 (by simpa using hb)

/-- Behind a newline without a backslash before it a stream of wrapped contents goes on with whole
wrapped contents. -/
theorem exists_suffix_of_flatMap_wrap {contents : List Bytes} {before rest : Bytes} {b : UInt8}
    (hescape : b ≠ frameEscape) (hend : b ≠ frameEnd)
    (h : contents.flatMap wrap = before ++ b :: frameEnd :: rest) :
    ∃ tail, tail <:+ contents ∧ rest = tail.flatMap wrap := by
  induction contents generalizing before with
  | nil => exact absurd h (by simp)
  | cons content contents ih =>
    have hsplit : wrap content ++ contents.flatMap wrap = (before ++ [b]) ++ frameEnd :: rest := by
      rw [← List.flatMap_cons, h, List.append_assoc, List.singleton_append]
    rcases List.append_eq_append_iff.1 hsplit with ⟨middle, hbefore, hrest⟩ | ⟨middle, hwrap, hrest⟩
    · -- the newline stands behind the first content
      rcases List.eq_nil_or_concat middle with rfl | ⟨middle, last, rfl⟩
      · rw [wrap, List.append_nil] at hbefore
        exact absurd (List.append_inj' hbefore rfl).2 (by simpa using hend)
      · rw [List.concat_eq_append, ← List.append_assoc] at hbefore
        obtain rfl : b = last := by simpa using (List.append_inj' hbefore rfl).2
        rw [List.concat_eq_append, List.append_assoc, List.singleton_append] at hrest
        obtain ⟨tail, htail, heq⟩ := ih hrest
        exact ⟨tail, htail.trans (List.suffix_cons _ _), heq⟩
    · -- it stands in the first content, and so at its end
      cases middle with
      | nil =>
        rw [wrap, List.append_nil] at hwrap
        exact absurd (List.append_inj' hwrap rfl).2 (by simpa [eq_comm] using hend)
      | cons x middle =>
        obtain ⟨rfl, hbehind⟩ := List.cons.inj hrest
        rw [List.append_assoc, List.singleton_append] at hwrap
        obtain rfl := eq_nil_of_wrap_eq hescape hwrap
        exact ⟨contents, List.suffix_cons _ _, hbehind⟩

end SignedBoot.Wire
