import Mathlib.Data.List.Basic
import Mathlib.Tactic.Common
import SignedBoot.Proofs.Wire.FrameDelimiters

/-!
# Leftovers in the receive buffer

The receive buffer is never wiped: emptying it only puts the index back, and the bytes of earlier frames
stay where they were. Nothing reads them. What an assembler does depends on the bytes it has collected
and on a pending escape alone, so one that has just been emptied goes on like a fresh one, and every byte
of a frame it hands out has arrived since.
-/

namespace SignedBoot.Wire

variable {n : Nat}

/-- The bytes that a frame carries. -/
def Frame.bytes (frame : Frame) : Bytes :=
  frame.opcode.toList ++ frame.payload

theorem Frame.bytes_ofContent (content : Bytes) : (Frame.ofContent content).bytes = content := by
  cases content <;> rfl

namespace Assembler

/-! ## Buffers that differ out of sight -/

/-- The same bytes are collected and the same escape is pending, whatever else stands in the buffers. -/
def Alike (s t : Assembler n) : Prop :=
  s.collected = t.collected ∧ s.escaped = t.escaped

/-- A buffer of one byte is emptied by every byte it collects. -/
theorem feed_reads_one (s : Assembler 1) (b : UInt8) :
    (s.feed b).1.escaped = decide (Reading.ofByte s.escaped b = .escape) ∧
      (s.feed b).1.collected = [] ∧ (s.feed b).2 = none := by
  have hempty : ∀ t : Assembler 1, t.collected = [] := by
    intro t
    rw [← List.length_eq_zero_iff, length_collected]
    exact Nat.lt_one_iff.1 t.index_lt
  have hindex : ¬ 0 < s.index := Nat.not_lt.2 (Nat.le_of_lt_succ s.index_lt)
  by_cases hescaped : s.escaped = true
  · have hfeed : s.feed b = (s.store b, none) := by rw [feed, if_pos hescaped]
    rw [hfeed, Reading.ofByte, if_pos hescaped]
    exact ⟨s.escaped_store b, hempty _, rfl⟩
  by_cases hescape : b = frameEscape
  · have hfeed : s.feed b = ({ s with escaped := true }, none) := by
      rw [feed, if_neg hescaped, if_pos hescape]
    rw [hfeed, Reading.ofByte, if_neg hescaped, if_pos hescape]
    exact ⟨rfl, hempty _, rfl⟩
  · have hfeed : s.feed b = (s.store b, none) := by
      rw [feed, if_neg hescaped, if_neg hescape, dif_neg fun h => hindex h.2,
        if_neg fun h => hindex h.2.1]
    rw [hfeed, Reading.ofByte, if_neg hescaped, if_neg hescape]
    exact ⟨s.escaped_store b, hempty _, rfl⟩

/-- A byte takes assemblers that are alike to assemblers that are alike, and completes the same frame. -/
theorem Alike.feed {s t : Assembler n} (h : Alike s t) (b : UInt8) :
    Alike (s.feed b).1 (t.feed b).1 ∧ (s.feed b).2 = (t.feed b).2 := by
  obtain ⟨hcollected, hescaped⟩ := h
  by_cases hn : 1 < n
  · obtain ⟨hs, hs', hs''⟩ := feed_reads hn s b
    obtain ⟨ht, ht', ht''⟩ := feed_reads hn t b
    have hframe : s.frame = t.frame := by rw [frame, frame, hcollected]
    rw [Alike, hs, hs', hs'', ht, ht', ht'', hcollected, hescaped, hframe]
    exact ⟨⟨rfl, rfl⟩, rfl⟩
  · obtain rfl : n = 1 := by
      have hpos := s.index_lt
      omega
    obtain ⟨hs, hs', hs''⟩ := feed_reads_one s b
    obtain ⟨ht, ht', ht''⟩ := feed_reads_one t b
    rw [Alike, hs, hs', hs'', ht, ht', ht'', hescaped]
    exact ⟨⟨rfl, rfl⟩, rfl⟩

/-- Assemblers that are alike hand out the same frames at the same positions. -/
theorem Alike.go {s t : Assembler n} (h : Alike s t) (i : Nat) (bs : Bytes) :
    (feedAll.go s i bs).2 = (feedAll.go t i bs).2 := by
  induction bs generalizing s t i with
  | nil => rfl
  | cons b bs ih =>
    obtain ⟨hnext, hframe⟩ := h.feed b
    have hrest := ih hnext (i + 1)
    rw [feedAll.go, feedAll.go]
    rcases hs : s.feed b with ⟨s', completed⟩
    rcases ht : t.feed b with ⟨t', completed'⟩
    rw [hs, ht] at hframe hrest
    obtain rfl : completed = completed' := hframe
    cases completed with
    | none => exact hrest
    | some frame => exact congrArg ((i, frame) :: ·) hrest

theorem collected_of_idle {s : Assembler n} (h : s.Idle) : s.collected = [] := by
  rw [← List.length_eq_zero_iff, length_collected]
  exact h.1

theorem alike_of_idle {s t : Assembler n} (hs : s.Idle) (ht : t.Idle) : Alike s t :=
  ⟨(collected_of_idle hs).trans (collected_of_idle ht).symm, hs.2.trans ht.2.symm⟩

/-! ## Where collected bytes come from -/

/-- One more byte collects at most that byte. -/
theorem collected_feed_sublist (s : Assembler n) (b : UInt8) :
    (s.feed b).1.collected.Sublist (s.collected ++ [b]) := by
  have hpush : ∀ held, (push n held b).Sublist (held ++ [b]) := by
    intro held
    rw [push]
    split
    · exact List.Sublist.refl _
    · exact List.nil_sublist _
  by_cases hn : 1 < n
  · rw [(feed_reads hn s b).2.1, Reading.ofByte]
    split
    · exact hpush _
    · split
      · exact List.sublist_append_left _ _
      · rw [gather]
        split
        · next hstart =>
          rw [hstart]
          exact List.sublist_append_right _ _
        · split
          · exact List.nil_sublist _
          · exact hpush _
  · obtain rfl : n = 1 := by
      have hpos := s.index_lt
      omega
    rw [(feed_reads_one s b).2.1]
    exact List.nil_sublist _

theorem collected_after_sublist (s : Assembler n) (bs : Bytes) :
    (s.after bs).collected.Sublist (s.collected ++ bs) := by
  induction bs generalizing s with
  | nil => exact List.sublist_append_left _ _
  | cons b bs ih =>
    rw [after_cons, List.append_cons]
    exact (ih (s.feed b).1).trans ((collected_feed_sublist s b).append_right bs)

/-- A frame carries nothing but collected bytes. -/
theorem bytes_sublist_collected {s s' : Assembler n} {b : UInt8} {frame : Frame}
    (h : s.feed b = (s', some frame)) : frame.bytes.Sublist s.collected ∧ s'.Idle := by
  have hsome : (s.feed b).2 = some frame := by rw [h]
  by_cases hn : 1 < n
  · obtain ⟨hend, content, hcontent, rfl⟩ := (completes_iff hn s b frame).1 hsome
    obtain ⟨hescaped, hcollected, -⟩ := feed_reads hn s b
    rw [h, hend] at hescaped hcollected
    rw [gather, if_neg (by decide), if_pos ⟨rfl, by rw [hcontent]; rfl⟩] at hcollected
    refine ⟨?_, ?_, hescaped⟩
    · rw [Frame.bytes_ofContent, hcontent]
      exact List.sublist_cons_self _ _
    · rw [← length_collected, hcollected, List.length_nil]
  · obtain rfl : n = 1 := by
      have hpos := s.index_lt
      omega
    rw [(feed_reads_one s b).2.2] at hsome
    cases hsome

/-- A frame that an idle assembler hands out carries bytes that it has been fed. -/
theorem bytes_sublist_of_idle {s : Assembler n} (hs : s.Idle) {bs : Bytes} {b : UInt8} {frame : Frame}
    (h : ((s.after bs).feed b).2 = some frame) : frame.bytes.Sublist bs := by
  have hheld := collected_after_sublist s bs
  rw [collected_of_idle hs, List.nil_append] at hheld
  exact (bytes_sublist_collected (Prod.ext rfl h)).1.trans hheld

/-! ## Emptied buffers -/

/-- A byte is collected and fills the buffer, which drops everything. -/
def Overflows (s : Assembler n) (b : UInt8) : Prop :=
  s.feed b = (s.store b, none) ∧ s.index + 1 = n

/-- The ways in which an assembler that was fed a stream has just been emptied. -/
inductive JustEmptied (start : Assembler n) : Bytes → Assembler n → Prop where
  | completed {front : Bytes} {b : UInt8} {s : Assembler n} {frame : Frame}
    (h : (start.after front).feed b = (s, some frame)) : JustEmptied start (front ++ [b]) s
  | overflowed {front : Bytes} {b : UInt8} (h : Overflows (start.after front) b) :
    JustEmptied start (front ++ [b]) (start.after (front ++ [b]))
  | cleared {bs : Bytes} : JustEmptied start bs (start.after bs).clear

theorem idle_of_overflows {s : Assembler n} {b : UInt8} (h : Overflows s b) : (s.feed b).1.Idle := by
  rw [h.1, store, dif_neg (by rw [h.2]; exact Nat.lt_irrefl n)]
  exact ⟨rfl, rfl⟩

theorem JustEmptied.idle {start s : Assembler n} {bs : Bytes} (h : JustEmptied start bs s) :
    s.Idle := by
  cases h with
  | completed h => exact (bytes_sublist_collected h).2
  | overflowed h =>
    rw [after_concat]
    exact idle_of_overflows h
  | cleared => exact ⟨rfl, rfl⟩

/-- On a stream an assembler does what a fresh one does, and no byte from before the stream, or from an
earlier frame of it, gets into a frame. -/
structure LikeFresh (s : Assembler n) (bs : Bytes) : Prop where
  /-- The same frames at the same positions. -/
  frames : (s.feedAll bs).2 = ((empty n (Nat.zero_lt_of_lt s.index_lt)).feedAll bs).2
  index_lt : ∀ front, front <+: bs → (s.after front).index < n
  /-- What a frame carries stands in the stream before the newline that completes it. -/
  own : ∀ j frame, (j, frame) ∈ (s.feedAll bs).2 → frame.bytes.Sublist (bs.take j)
  /-- What a frame carries stands behind the newline that completed an earlier one. -/
  later : ∀ i earlier j frame, (i, earlier) ∈ (s.feedAll bs).2 → (j, frame) ∈ (s.feedAll bs).2 →
    i < j → frame.bytes.Sublist ((bs.take j).drop (i + 1))

/-- An assembler that has just completed a frame, overflowed or been cleared goes on like a fresh one,
whatever it was fed before and whatever is still in its buffer. -/
theorem likeFresh_of_justEmptied {start s : Assembler n} {before : Bytes}
    (h : JustEmptied start before s) (bs : Bytes) : LikeFresh s bs := by
  have hidle := h.idle
  have hmem := fun j frame => mem_go_iff s 0 bs j frame
  refine ⟨?_, fun front _ => (s.after front).index_lt, ?_, ?_⟩
  · exact (alike_of_idle hidle ⟨rfl, rfl⟩).go 0 bs
  · intro j frame hj
    obtain ⟨k, b, hk, -, hfeed⟩ := (hmem j frame).1 hj
    obtain rfl : j = k := by omega
    exact bytes_sublist_of_idle hidle hfeed
  · intro i earlier j frame hi hj hlt
    obtain ⟨i', c, hi', hc, hearlier⟩ := (hmem i earlier).1 hi
    obtain ⟨j', b, hj', -, hfeed⟩ := (hmem j frame).1 hj
    obtain rfl : i = i' := by omega
    obtain rfl : j = j' := by omega
    -- behind the earlier frame the assembler is idle, and the bytes up to the later one follow
    have hempty : (s.after (bs.take (i + 1))).Idle := by
      rw [List.take_add_one, hc, Option.toList_some, after_concat]
      exact (bytes_sublist_collected (Prod.ext rfl hearlier)).2
    have hsplit : bs.take j = bs.take (i + 1) ++ (bs.take j).drop (i + 1) := by
      have hfront : (bs.take j).take (i + 1) = bs.take (i + 1) := by
        rw [List.take_take, Nat.min_eq_left hlt]
      rw [← hfront, List.take_append_drop]
    rw [hsplit, after_append] at hfeed
    exact bytes_sublist_of_idle hempty hfeed

/-- The buffer of four bytes still holds the front of a frame that was too long for it. -/
theorem likeFresh_behind_overlong_frame :
    JustEmptied (empty 4) [0x40, 0x44, 0x01, 0x02] ((empty 4).after [0x40, 0x44, 0x01, 0x02]) ∧
      LikeFresh ((empty 4).after [0x40, 0x44, 0x01, 0x02]) [0x0A, 0x40, 0x58, 0x0A, 0x4D, 0x0A] := by
  have hover : JustEmptied (empty 4) ([0x40, 0x44, 0x01] ++ [0x02])
      ((empty 4).after ([0x40, 0x44, 0x01] ++ [0x02])) := .overflowed ⟨rfl, rfl⟩
  exact ⟨hover, likeFresh_of_justEmptied hover _⟩

end Assembler

end SignedBoot.Wire
