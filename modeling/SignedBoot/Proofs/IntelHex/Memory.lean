import Mathlib.Data.List.Basic
import Mathlib.Data.List.MinMax
import Mathlib.Order.Nat
import Mathlib.Tactic.Common
import SignedBoot.IntelHex.Record

/-!
# The memory that records describe

Each byte of a data record belongs to an absolute address: the base in force, the record's offset and
the byte's position in it add up. Records come in any order and may overlap, and of several bytes for
one address the last one counts, so a file describes a memory with a byte at some addresses and
nothing at the others.
-/

namespace SignedBoot.IntelHex

/-- The byte for an address in a run of bytes from a start on. -/
def byteIn? (start : Nat) (value : Bytes) (a : Nat) : Option UInt8 :=
  if start ≤ a then value[a - start]? else none

@[simp]
theorem byteIn?_nil (start a : Nat) : byteIn? start [] a = none :=
  ite_self none

theorem byteIn?_cons (start : Nat) (b : UInt8) (bs : Bytes) (a : Nat) :
    byteIn? start (b :: bs) a = if start = a then some b else byteIn? (start + 1) bs a := by
  unfold byteIn?
  rcases Nat.lt_trichotomy start a with hlt | rfl | hgt
  · have hsub : a - start = a - (start + 1) + 1 := by omega
    rw [if_pos (Nat.le_of_lt hlt), if_neg (Nat.ne_of_lt hlt), if_pos (Nat.succ_le_of_lt hlt), hsub,
      List.getElem?_cons_succ]
  · rw [if_pos (Nat.le_refl start), if_pos rfl, Nat.sub_self, List.getElem?_cons_zero]
  · rw [if_neg (Nat.not_le_of_lt hgt), if_neg (Nat.ne_of_gt hgt), if_neg (by omega)]

/-- Two runs laid end to end give what the one in front gives, and behind it what the other gives. -/
theorem byteIn?_append (start : Nat) (front back : Bytes) (a : Nat) :
    byteIn? start (front ++ back) a =
      (byteIn? start front a).or (byteIn? (start + front.length) back a) := by
  induction front generalizing start with
  | nil => rw [List.nil_append, byteIn?_nil, Option.none_or, List.length_nil, Nat.add_zero]
  | cons b front ih =>
    have hstart : start + (b :: front).length = start + 1 + front.length := by
      rw [List.length_cons]
      omega
    rw [List.cons_append, byteIn?_cons, byteIn?_cons, ih, hstart]
    split
    · rfl
    · rfl

theorem byteIn?_isSome_iff {start : Nat} {value : Bytes} {a : Nat} :
    (byteIn? start value a).isSome ↔ start ≤ a ∧ a < start + value.length := by
  rw [byteIn?]
  split
  · next hle =>
    rw [Option.isSome_iff_ne_none, ne_eq, List.getElem?_eq_none_iff]
    omega
  · next hlt => exact iff_of_false (by simp) fun h => hlt h.1

/-- The bytes of a data record, with the base that they stand under. -/
structure Placement where
  base : Nat
  offset : UInt16
  value : Bytes
  deriving DecidableEq, Repr

namespace Placement

/-- The absolute address of the first byte. -/
def start (p : Placement) : Nat := p.base + p.offset.toNat

/-- The absolute address behind the last byte. -/
def stop (p : Placement) : Nat := p.start + p.value.length

/-- The byte for an absolute address. -/
def byteAt? (p : Placement) (a : Nat) : Option UInt8 :=
  byteIn? p.start p.value a

end Placement

/-- The data records of a file up to its end, from a base that is in force to start with. -/
def placements (base : Nat) : List Record → List Placement
  | [] => []
  | .extendedLinear upper :: rest => placements (upper.toNat * 0x10000) rest
  | .extendedSegment paragraphs :: rest => placements (paragraphs.toNat * 16) rest
  | .data offset value :: rest => ⟨base, offset, value⟩ :: placements base rest
  | .endOfFile :: _ => []
  | .startSegment _ _ :: rest => placements base rest
  | .startLinear _ :: rest => placements base rest

/-- The byte last given for an address. -/
def lastByte? (ps : List Placement) (a : Nat) : Option UInt8 :=
  ps.reverse.findSome? (·.byteAt? a)

/-- Whether some byte is given for an address. -/
def Given (ps : List Placement) (a : Nat) : Prop :=
  ∃ p ∈ ps, p.start ≤ a ∧ a < p.stop

/-- The address behind the furthest end of a data record, be it that of an empty one. -/
def furthest (ps : List Placement) : Nat :=
  (ps.map Placement.stop).foldr max 0

theorem lastByte?_cons (p : Placement) (ps : List Placement) (a : Nat) :
    lastByte? (p :: ps) a = (lastByte? ps a).or (p.byteAt? a) := by
  rw [lastByte?, List.reverse_cons, List.findSome?_append, List.findSome?_singleton]
  rfl

theorem lastByte?_isSome_iff {ps : List Placement} {a : Nat} :
    (lastByte? ps a).isSome ↔ Given ps a := by
  rw [lastByte?, List.findSome?_isSome_iff]
  simp only [List.mem_reverse, Placement.byteAt?, byteIn?_isSome_iff, Given, Placement.stop]

theorem Given.mono {ps qs : List Placement} {a : Nat} (h : Given ps a) (hsub : ps ⊆ qs) :
    Given qs a := by
  obtain ⟨p, hp, hinside⟩ := h
  exact ⟨p, hsub hp, hinside⟩

theorem stop_le_furthest {ps : List Placement} {p : Placement} (h : p ∈ ps) :
    p.stop ≤ furthest ps :=
  List.le_max_of_le (List.mem_map_of_mem h) (Nat.le_refl _)

theorem Given.lt_furthest {ps : List Placement} {a : Nat} (h : Given ps a) : a < furthest ps := by
  obtain ⟨p, hp, -, hlt⟩ := h
  exact Nat.lt_of_lt_of_le hlt (stop_le_furthest hp)

theorem exists_stop_eq_furthest {ps : List Placement} (h : 0 < furthest ps) :
    ∃ p ∈ ps, p.stop = furthest ps := by
  induction ps with
  | nil => exact absurd h (Nat.lt_irrefl 0)
  | cons p ps ih =>
    have hmax : furthest (p :: ps) = max p.stop (furthest ps) := rfl
    rcases Nat.le_total p.stop (furthest ps) with hle | hle
    · rw [hmax, Nat.max_eq_right hle] at h ⊢
      obtain ⟨q, hq, hstop⟩ := ih h
      exact ⟨q, List.mem_cons_of_mem _ hq, hstop⟩
    · rw [hmax, Nat.max_eq_left hle]
      exact ⟨p, List.mem_cons_self, rfl⟩

end SignedBoot.IntelHex
