import Mathlib.Logic.Relation
import SignedBoot.Proofs.Host.LoadedImage
import SignedBoot.Proofs.IntelHex.RoundTrip

/-!
# How a file is cut into records

A linker may put the bytes of an image into few records or into many, and in one order or another.
Two changes of the records take one such file to any other: a data record is cut in two, and two data
records that stand next to each other and give no byte for the same address change places. Neither
changes what the loader makes of the file, image or failure, whatever base the records stand under.

Laying a run over a memory grows it and replaces some of its bytes. The size that comes out is the
furthest end, and each byte is the last one laid, so two runs may be laid in either order if they do
not meet, and in one piece if they meet end to end.
-/

namespace SignedBoot.Host

open IntelHex Layout

/-! ## Laying two runs over a memory -/

/-- No address belongs to both of two runs. An empty run shares none with any other. -/
def Apart (start : Nat) (value : Bytes) (start' : Nat) (value' : Bytes) : Prop :=
  ∀ a, start ≤ a → a < start + value.length → ¬ (start' ≤ a ∧ a < start' + value'.length)

theorem Apart.byteIn?_eq_none {start start' : Nat} {value value' : Bytes}
    (h : Apart start value start' value') (a : Nat) :
    byteIn? start value a = none ∨ byteIn? start' value' a = none := by
  by_cases hin : start ≤ a ∧ a < start + value.length
  · right
    rw [← Option.not_isSome_iff_eq_none, byteIn?_isSome_iff]
    exact h a hin.1 hin.2
  · left
    rw [← Option.not_isSome_iff_eq_none, byteIn?_isSome_iff]
    exact hin

namespace Image

theorem lay_append (mem : Array UInt8) (start : Nat) (front back : Bytes) :
    lay mem start (front ++ back) = lay (lay mem start front) (start + front.length) back := by
  apply eq_of_cells
  · rw [size_lay, size_lay, size_lay, List.length_append]
    omega
  · intro a
    rw [cell_lay, cell_lay, cell_lay, byteIn?_append]
    -- the runs do not meet, so it does not matter which of them is asked first
    cases hfront : byteIn? start front a with
    | none => rfl
    | some b =>
      obtain ⟨-, hlt⟩ := byteIn?_isSome_iff.1 (Option.isSome_of_eq_some hfront)
      have hback : byteIn? (start + front.length) back a = none := if_neg (Nat.not_le_of_lt hlt)
      rw [hback]
      rfl

theorem lay_comm (mem : Array UInt8) {start start' : Nat} {value value' : Bytes}
    (h : Apart start value start' value') :
    lay (lay mem start value) start' value' = lay (lay mem start' value') start value := by
  apply eq_of_cells
  · rw [size_lay, size_lay, size_lay, size_lay, Nat.max_right_comm]
  · intro a
    rw [cell_lay, cell_lay, cell_lay, cell_lay]
    obtain hnone | hnone := h.byteIn?_eq_none a
    · rw [hnone]
      rfl
    · rw [hnone]
      rfl

end Image

/-! ## Cutting and swapping records -/

/-- One change of how the same bytes are cut into records. The records in front of the place and those
behind it stay as they are. -/
inductive Recut : List Record → List Record → Prop where
  /-- A data record is cut in two, the second of which starts where the first one ends. -/
  | cut (front back : List Record) (offset next : UInt16) (first second : Bytes)
      (hnext : next.toNat = offset.toNat + first.length) :
      Recut (front ++ .data offset (first ++ second) :: back)
        (front ++ .data offset first :: .data next second :: back)
  /-- Two neighbouring data records change places, which share no address. -/
  | swap (front back : List Record) (offset offset' : UInt16) (value value' : Bytes)
      (hapart : Apart offset.toNat value offset'.toNat value') :
      Recut (front ++ .data offset value :: .data offset' value' :: back)
        (front ++ .data offset' value' :: .data offset value :: back)

namespace Image

/-- Lists of records that are loaded alike over every memory, under every base, are so behind any
others. -/
theorem load_append_congr {records records' : List Record}
    (h : ∀ base mem, load base mem records = load base mem records') (front : List Record)
    (base : Nat) (mem : Array UInt8) :
    load base mem (front ++ records) = load base mem (front ++ records') := by
  induction front generalizing base mem with
  | nil => exact h base mem
  | cons r front ih =>
    cases r with
    | data offset value => exact ih base _
    | endOfFile => rfl
    | extendedSegment paragraphs => exact ih _ mem
    | startSegment segment offset => exact ih base mem
    | extendedLinear upper => exact ih _ mem
    | startLinear addr => exact ih base mem

theorem load_recut {records records' : List Record} (h : Recut records records') (base : Nat)
    (mem : Array UInt8) : load base mem records = load base mem records' := by
  cases h with
  | cut front back offset next first second hnext =>
    refine load_append_congr (fun base mem => ?_) front base mem
    rw [load, load, load]
    by_cases hbase : base = 0
    · simp only [if_pos hbase, hnext, lay_append]
    · simp only [if_neg hbase]
  | swap front back offset offset' value value' hapart =>
    refine load_append_congr (fun base mem => ?_) front base mem
    rw [load, load, load, load]
    by_cases hbase : base = 0
    · simp only [if_pos hbase, lay_comm mem hapart]
    · simp only [if_neg hbase]

/-- Any number of changes, in either direction. -/
theorem load_eq_of_recuts {records records' : List Record}
    (h : Relation.EqvGen Recut records records') (base : Nat) (mem : Array UInt8) :
    load base mem records = load base mem records' := by
  induction h with
  | rel _ _ hstep => exact load_recut hstep base mem
  | refl _ => rfl
  | symm _ _ _ ih => exact ih.symm
  | trans _ _ _ _ _ ih ih' => exact ih.trans ih'

/-! ## Files -/

/-- Nothing behind the end-of-file record is loaded. -/
theorem load_throughEnd (records : List Record) (base : Nat) (mem : Array UInt8) :
    load base mem (throughEnd records) = load base mem records := by
  induction records generalizing base mem with
  | nil => rfl
  | cons r records ih =>
    cases r with
    | data offset value => exact ih base _
    | endOfFile => rfl
    | extendedSegment paragraphs => exact ih _ mem
    | startSegment segment offset => exact ih base mem
    | extendedLinear upper => exact ih _ mem
    | startLinear addr => exact ih base mem

theorem ofHex_of_read {text : String} {records : List Record} {fault : Option ReadError}
    (h : IntelHex.read text = (records, fault)) :
    ofHex text = fault.elim (ofRecords records) fun e => .error (.parseHex e) := by
  rw [ofHex, h]
  cases fault <;> rfl

/-- The lines of some records are loaded as these records are. -/
theorem ofHex_listing {records : List Record} (h : ∀ r ∈ records, r.payload.length ≤ maxPayload) :
    ofHex (listing records) = ofRecords records := by
  rw [ofHex_of_read (read_listing h), Option.elim_none, ofRecords, ofRecords, load_throughEnd]

end Image

/-- Records that differ only in how the same bytes are cut into them make the same image, or fail
alike. So do two texts in which such records are read up to the same fault, if any, and the texts that
consist of the lines of such records. -/
theorem same_image_of_recuts {records records' : List Record}
    (h : Relation.EqvGen Recut records records') :
    Image.ofRecords records = Image.ofRecords records' ∧
      (∀ text text' fault, IntelHex.read text = (records, fault) →
        IntelHex.read text' = (records', fault) → Image.ofHex text = Image.ofHex text') ∧
      ((∀ r ∈ records, r.payload.length ≤ maxPayload) →
        (∀ r ∈ records', r.payload.length ≤ maxPayload) →
          Image.ofHex (listing records) = Image.ofHex (listing records')) := by
  have hrecords : Image.ofRecords records = Image.ofRecords records' := by
    rw [Image.ofRecords, Image.ofRecords, Image.load_eq_of_recuts h]
  refine ⟨hrecords, fun text text' fault hread hread' => ?_, fun hlen hlen' => ?_⟩
  · rw [Image.ofHex_of_read hread, Image.ofHex_of_read hread', hrecords]
  · rw [Image.ofHex_listing hlen, Image.ofHex_listing hlen', hrecords]

/-- Two records, the one for the higher addresses first. -/
def fewRecords : List Record :=
  [.data 0x10 [0xAA, 0xCC], .data 0 [0x12, 0x34, 0x56, 0x78], .endOfFile]

/-- The same bytes in ascending order, in three records. -/
def moreRecords : List Record :=
  [.data 0 [0x12, 0x34], .data 2 [0x56, 0x78], .data 0x10 [0xAA, 0xCC], .endOfFile]

theorem more_records_same_image :
    Relation.EqvGen Recut fewRecords moreRecords ∧
      Image.ofHex (listing fewRecords) = .ok configuredImage ∧
      Image.ofHex (listing moreRecords) = .ok configuredImage := by
  have hapart : Apart 0x10 [0xAA, 0xCC] 0 [0x12, 0x34, 0x56, 0x78] := by
    intro a hge _ hlt
    have hlt4 : a < 0 + 4 := hlt.2
    omega
  have hswap : Recut fewRecords
      [.data 0 [0x12, 0x34, 0x56, 0x78], .data 0x10 [0xAA, 0xCC], .endOfFile] :=
    .swap [] [.endOfFile] 0x10 0 [0xAA, 0xCC] [0x12, 0x34, 0x56, 0x78] hapart
  have hcut : Recut [.data 0 [0x12, 0x34, 0x56, 0x78], .data 0x10 [0xAA, 0xCC], .endOfFile]
      moreRecords :=
    .cut [] [.data 0x10 [0xAA, 0xCC], .endOfFile] 0 2 [0x12, 0x34] [0x56, 0x78] rfl
  have hrecuts : Relation.EqvGen Recut fewRecords moreRecords :=
    .trans _ _ _ (.rel _ _ hswap) (.rel _ _ hcut)
  have hlen : ∀ r ∈ fewRecords, r.payload.length ≤ maxPayload := by decide
  have hlen' : ∀ r ∈ moreRecords, r.payload.length ≤ maxPayload := by decide
  have himage : Image.ofHex (listing fewRecords) = .ok configuredImage := by
    rw [Image.ofHex_listing hlen, Image.ofRecords, Image.ofBytes_eq_ok_iff]
    decide +kernel
  exact ⟨hrecuts, himage, (same_image_of_recuts hrecuts).2.2 hlen hlen' ▸ himage⟩

end SignedBoot.Host
