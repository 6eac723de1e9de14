import Mathlib.Order.Bounds.Basic
import SignedBoot.Host.Image
import SignedBoot.Proofs.IntelHex.Memory

/-!
# What an image file is loaded as

The loader lays the data records under base zero over each other and passes over the others, whatever
address they come to. For a base that is the upper half of an address that is right: such data lies at
or above 64 KiB. But a base can also be given in paragraphs, and then the data under it may lie below
64 KiB, where the image is missing it. And a data record without data makes the image longer, though
it gives no byte. Without either, the image is the memory that the file describes below 64 KiB.
-/

namespace SignedBoot.Host

open IntelHex Layout

/-- Where the memory that an image is taken from ends. -/
abbrev imageSpace : Nat := 0x10000

/-- The byte that a memory holds at an address, which is erased beyond its end. -/
def cell (mem : Array UInt8) (a : Nat) : UInt8 :=
  mem[a]?.getD erased

/-- The data records that the loader does not pass over. -/
def underZero (ps : List Placement) : List Placement :=
  ps.filter (·.base = 0)

theorem underZero_cons_of_eq {p : Placement} (h : p.base = 0) (ps : List Placement) :
    underZero (p :: ps) = p :: underZero ps :=
  List.filter_cons_of_pos (decide_eq_true h)

theorem underZero_cons_of_ne {p : Placement} (h : p.base ≠ 0) (ps : List Placement) :
    underZero (p :: ps) = underZero ps :=
  List.filter_cons_of_neg (by simpa using h)

theorem base_of_mem_underZero {ps : List Placement} : ∀ p ∈ underZero ps, p.base = 0 :=
  fun _ hp => of_decide_eq_true (List.mem_filter.1 hp).2

/-! ## Laying one run over a memory -/

namespace Image

theorem size_overwrite (mem : Array UInt8) (start : Nat) (value : Bytes) :
    (overwrite mem start value).size = mem.size := by
  induction value generalizing mem start with
  | nil => rfl
  | cons b bs ih => rw [overwrite, ih, Array.size_setIfInBounds]

theorem cell_setIfInBounds {mem : Array UInt8} {i : Nat} (h : i < mem.size) (b : UInt8) (a : Nat) :
    cell (mem.setIfInBounds i b) a = if i = a then b else cell mem a := by
  unfold cell
  rw [Array.getElem?_setIfInBounds]
  split <;> rfl

/-- A run that fits is read back where it was written, and nothing else changes. -/
theorem cell_overwrite {mem : Array UInt8} {start : Nat} {value : Bytes}
    (h : start + value.length ≤ mem.size) (a : Nat) :
    cell (overwrite mem start value) a = (byteIn? start value a).getD (cell mem a) := by
  induction value generalizing mem start with
  | nil => rw [byteIn?_nil, overwrite, Option.getD_none]
  | cons b bs ih =>
    rw [List.length_cons] at h
    have hfits : start + 1 + bs.length ≤ (mem.setIfInBounds start b).size := by
      rw [Array.size_setIfInBounds]
      omega
    rw [overwrite, ih hfits, cell_setIfInBounds (by omega), byteIn?_cons]
    by_cases ha : start = a
    · -- what is laid behind the first byte does not reach back to it
      have hnone : byteIn? (start + 1) bs a = none := if_neg (by omega)
      rw [hnone, if_pos ha, if_pos ha]
      rfl
    · rw [if_neg ha, if_neg ha]

theorem size_lay (mem : Array UInt8) (start : Nat) (value : Bytes) :
    (lay mem start value).size = max mem.size (start + value.length) := by
  rw [lay, size_overwrite, Array.size_append, Array.size_replicate]
  omega

/-- Growing a memory with erased bytes changes none of its cells. -/
theorem cell_append_erased (mem : Array UInt8) (count a : Nat) :
    cell (mem ++ Array.replicate count erased) a = cell mem a := by
  unfold cell
  rw [Array.getElem?_append]
  split
  · rfl
  · next hle =>
    rw [Array.getElem?_eq_none (Nat.le_of_not_lt hle), Array.getElem?_replicate]
    split <;> rfl

theorem cell_lay (mem : Array UInt8) (start : Nat) (value : Bytes) (a : Nat) :
    cell (lay mem start value) a = (byteIn? start value a).getD (cell mem a) := by
  have hfits : start + value.length ≤
      (mem ++ Array.replicate (start + value.length - mem.size) erased).size := by
    rw [Array.size_append, Array.size_replicate]
    omega
  rw [lay, cell_overwrite hfits, cell_append_erased]

/-- A memory is determined by its size and its cells. -/
theorem eq_of_cells {mem mem' : Array UInt8} (hsize : mem.size = mem'.size)
    (hcell : ∀ a, cell mem a = cell mem' a) : mem = mem' := by
  refine Array.ext hsize fun a h h' => ?_
  have heq := hcell a
  rwa [cell, cell, Array.getElem?_eq_getElem h, Array.getElem?_eq_getElem h', Option.getD_some,
    Option.getD_some] at heq

/-! ## Loading a file -/

/-- Lays the bytes of a data record over a memory, at the record's offset. -/
def layPlacement (mem : Array UInt8) (p : Placement) : Array UInt8 :=
  lay mem p.offset.toNat p.value

/-- The loader lays the records under base zero over each other, in the order of the file. -/
theorem load_eq_foldl (base : Nat) (mem : Array UInt8) (records : List Record) :
    load base mem records = (underZero (placements base records)).foldl layPlacement mem := by
  fun_induction load base mem records with
  | case1 => rfl
  | case2 base mem upper rest ih => exact ih
  | case3 base mem paragraphs rest ih => exact ih
  | case4 base mem offset value rest ih =>
    rw [ih]
    rw [placements]
    by_cases hbase : base = 0
    · rw [if_pos hbase, underZero_cons_of_eq hbase, List.foldl_cons]
      rfl
    · rw [if_neg hbase, underZero_cons_of_ne hbase]
  | case5 => rfl
  | case6 base mem segment offset rest ih => exact ih
  | case7 base mem addr rest ih => exact ih

section
variable {ps : List Placement} (h : ∀ p ∈ ps, p.base = 0)
include h

theorem size_foldl_layPlacement (mem : Array UInt8) :
    (ps.foldl layPlacement mem).size = max mem.size (furthest ps) := by
  induction ps generalizing mem with
  | nil => exact (Nat.max_eq_left (Nat.zero_le _)).symm
  | cons p ps ih =>
    obtain ⟨hp, hps⟩ := List.forall_mem_cons.1 h
    have hstop : p.offset.toNat + p.value.length = p.stop := by
      rw [Placement.stop, Placement.start, hp, Nat.zero_add]
    have hmax : furthest (p :: ps) = max p.stop (furthest ps) := rfl
    rw [List.foldl_cons, ih hps, layPlacement, size_lay, hstop, hmax, Nat.max_assoc]

theorem cell_foldl_layPlacement (mem : Array UInt8) (a : Nat) :
    cell (ps.foldl layPlacement mem) a = (lastByte? ps a).getD (cell mem a) := by
  induction ps generalizing mem with
  | nil => rfl
  | cons p ps ih =>
    obtain ⟨hp, hps⟩ := List.forall_mem_cons.1 h
    have hstart : p.offset.toNat = p.start := by rw [Placement.start, hp, Nat.zero_add]
    rw [List.foldl_cons, ih hps, layPlacement, cell_lay, hstart, lastByte?_cons]
    cases lastByte? ps a <;> rfl

end

theorem size_load (records : List Record) :
    (load 0 #[] records).size = furthest (underZero (placements 0 records)) := by
  rw [load_eq_foldl, size_foldl_layPlacement base_of_mem_underZero]
  exact Nat.max_eq_right (Nat.zero_le _)

-- an empty record makes an image longer though it gives no byte
example : (load 0 #[] [.data 0 [0x12], .data 8 []]).size = 8 := by
  rfl

theorem cell_load (records : List Record) (a : Nat) :
    cell (load 0 #[] records) a =
      (lastByte? (underZero (placements 0 records)) a).getD erased := by
  rw [load_eq_foldl, cell_foldl_layPlacement base_of_mem_underZero]
  rfl

theorem ofBytes_eq_ok_iff {bytes : Bytes} {image : Image} :
    ofBytes bytes = .ok image ↔ image.bytes = bytes := by
  constructor
  · intro h
    unfold ofBytes at h
    split at h
    · cases h
    · split at h
      · split at h
        · cases h
          rfl
        · cases h
      · cases h
  · rintro rfl
    rw [ofBytes, dif_neg image.ne_nil, dif_pos image.length_lt, dif_pos image.second_erased]

theorem ofHex_eq_ok_iff {text : String} {image : Image} :
    ofHex text = .ok image ↔
      ∃ records, IntelHex.read text = (records, none) ∧
        image.bytes = (load 0 #[] records).toList := by
  unfold ofHex
  split
  · next records hread =>
    rw [ofRecords, ofBytes_eq_ok_iff]
    constructor
    · exact fun hbytes => ⟨records, hread, hbytes⟩
    · rintro ⟨records', hread', hbytes⟩
      obtain rfl := (Prod.mk.inj (hread.symm.trans hread')).1
      exact hbytes
  · next e hread =>
    refine iff_of_false (by simp) ?_
    rintro ⟨records, hread', -⟩
    cases hread.symm.trans hread'

end Image

/-! ## What a file describes -/

/-- A run of bytes from address 0 on is the memory that data records describe below 64 KiB: each of
its bytes is the last one given for its address, erased if none is, it ends at the highest address for
which one is given, and none of those is missing from it. -/
structure Describes (ps : List Placement) (bytes : Bytes) : Prop where
  byte : ∀ a (h : a < bytes.length), bytes[a] = (lastByte? ps a).getD erased
  length : ∃ top, bytes.length = top + 1 ∧ IsGreatest {a | a < imageSpace ∧ Given ps a} top
  kept : ∀ a < imageSpace, ∀ b, lastByte? ps a = some b → bytes[a]? = some b

/-- Where records under another base than zero have the last word below 64 KiB, they say what would be
there without them. -/
def NothingLost (ps : List Placement) : Prop :=
  ∀ a < imageSpace, ∀ b, lastByte? ps a = some b →
    a < furthest (underZero ps) ∧ (lastByte? (underZero ps) a).getD erased = b

/-- A byte is given for the address at which the records under base zero end. -/
def EndsInData (ps : List Placement) : Prop :=
  Given ps (furthest (underZero ps) - 1)

/-- Every data record holds data, and only the base zero puts it below 64 KiB. -/
def Plain (ps : List Placement) : Prop :=
  ∀ p ∈ ps, p.value ≠ [] ∧ (p.base = 0 ∨ imageSpace ≤ p.start)

theorem lastByte?_eq_none_of_underZero {ps : List Placement} {a : Nat} (h : lastByte? ps a = none) :
    lastByte? (underZero ps) a = none := by
  rw [← Option.not_isSome_iff_eq_none, lastByte?_isSome_iff] at h ⊢
  exact fun hgiven => h (hgiven.mono (List.filter_subset_self ps))

/-- Records under another base than zero that start behind an address do not matter there. -/
theorem lastByte?_underZero {ps : List Placement} {a : Nat}
    (h : ∀ p ∈ ps, p.base = 0 ∨ a < p.start) : lastByte? (underZero ps) a = lastByte? ps a := by
  induction ps with
  | nil => rfl
  | cons p ps ih =>
    obtain ⟨hp, hps⟩ := List.forall_mem_cons.1 h
    rw [lastByte?_cons]
    by_cases hbase : p.base = 0
    · rw [underZero_cons_of_eq hbase, lastByte?_cons, ih hps]
    · have hbehind : p.byteAt? a = none := if_neg (Nat.not_le_of_lt (hp.resolve_left hbase))
      rw [underZero_cons_of_ne hbase, ih hps, hbehind, Option.or_none]

theorem Plain.nothingLost {ps : List Placement} (h : Plain ps) : NothingLost ps := by
  intro a ha b hb
  have hsame : lastByte? (underZero ps) a = lastByte? ps a :=
    lastByte?_underZero fun p hp => (h p hp).2.imp_right (Nat.lt_of_lt_of_le ha)
  have hzero : lastByte? (underZero ps) a = some b := hsame.trans hb
  refine ⟨Given.lt_furthest (lastByte?_isSome_iff.1 (Option.isSome_of_eq_some hzero)), ?_⟩
  rw [hzero, Option.getD_some]

theorem Plain.endsInData {ps : List Placement} (h : Plain ps) (hpos : 0 < furthest (underZero ps)) :
    EndsInData ps := by
  obtain ⟨p, hp, hstop⟩ := exists_stop_eq_furthest hpos
  have hmem : p ∈ ps := List.mem_of_mem_filter hp
  have hlen : 0 < p.value.length := List.length_pos_iff.2 (h p hmem).1
  unfold Placement.stop at hstop
  refine ⟨p, hmem, ?_, ?_⟩
  · omega
  · rw [Placement.stop, hstop]
    omega

section
variable {records : List Record} {image : Image}
  (h : image.bytes = (Image.load 0 #[] records).toList)
include h

theorem Image.length_eq_furthest :
    image.bytes.length = furthest (underZero (placements 0 records)) := by
  rw [h, Array.length_toList, Image.size_load]

/-- Every byte of an image is the last one given under base zero. -/
theorem Image.getElem_bytes (a : Nat) (ha : a < image.bytes.length) :
    image.bytes[a] = (lastByte? (underZero (placements 0 records)) a).getD erased := by
  rw [← Image.cell_load, cell, ← Array.getElem?_toList, ← h, List.getElem?_eq_getElem ha,
    Option.getD_some]

theorem Image.describes_iff :
    Describes (placements 0 records) image.bytes ↔
      NothingLost (placements 0 records) ∧ EndsInData (placements 0 records) := by
  have hlength := Image.length_eq_furthest h
  have hpos : 0 < image.bytes.length := List.length_pos_iff.2 image.ne_nil
  have hspace : image.bytes.length < imageSpace := Nat.lt_trans image.length_lt (by decide)
  constructor
  · intro hd
    refine ⟨fun a ha b hb => ?_, ?_⟩
    · obtain ⟨hlt, hbyte⟩ := List.getElem?_eq_some_iff.1 (hd.kept a ha b hb)
      rw [← Image.getElem_bytes h a hlt, ← hlength]
      exact ⟨hlt, hbyte⟩
    · obtain ⟨top, htop, hgreatest⟩ := hd.length
      rw [EndsInData, ← hlength, htop]
      exact hgreatest.1.2
  · rintro ⟨hlost, hends⟩
    have hkept (a : Nat) (ha : a < imageSpace) (b : UInt8)
        (hb : lastByte? (placements 0 records) a = some b) : image.bytes[a]? = some b := by
      obtain ⟨hlt, hbyte⟩ := hlost a ha b hb
      rw [← hlength] at hlt
      rw [List.getElem?_eq_getElem hlt, Image.getElem_bytes h a hlt, hbyte]
    refine ⟨fun a ha => ?_, ⟨image.bytes.length - 1, by omega, ⟨by omega, ?_⟩, ?_⟩, hkept⟩
    · cases hb : lastByte? (placements 0 records) a with
      | none => rw [Image.getElem_bytes h a ha, lastByte?_eq_none_of_underZero hb]
      | some b =>
        have hbyte := hkept a (Nat.lt_trans ha hspace) b hb
        rw [List.getElem?_eq_getElem ha] at hbyte
        exact Option.some.inj hbyte
    · rw [hlength]
      exact hends
    · rintro a ⟨ha, hgiven⟩
      obtain ⟨b, hb⟩ := Option.isSome_iff_exists.1 (lastByte?_isSome_iff.2 hgiven)
      obtain ⟨hlt, -⟩ := hlost a ha b hb
      rw [← hlength] at hlt
      exact Nat.le_sub_one_of_lt hlt

end

/-- An accepted image holds at each address the last byte given under base zero, erased if there is
none, and ends where the records under base zero do. So it is the memory that the file describes below
64 KiB exactly if no record under another base has a say there and no empty record sticks out, as in
every file whose data records all hold data and come below 64 KiB under base zero only. -/
theorem loaded_image_describes_iff {text : String} {image : Image} (h : Image.ofHex text = .ok image) :
    ∃ records, IntelHex.read text = (records, none) ∧
      (∀ a (ha : a < image.bytes.length),
        image.bytes[a] = (lastByte? (underZero (placements 0 records)) a).getD erased) ∧
      image.bytes.length = furthest (underZero (placements 0 records)) ∧
      (Describes (placements 0 records) image.bytes ↔
        NothingLost (placements 0 records) ∧ EndsInData (placements 0 records)) ∧
      (Plain (placements 0 records) → Describes (placements 0 records) image.bytes) := by
  obtain ⟨records, hread, hbytes⟩ := Image.ofHex_eq_ok_iff.1 h
  have hlength := Image.length_eq_furthest hbytes
  refine ⟨records, hread, Image.getElem_bytes hbytes, hlength, Image.describes_iff hbytes, ?_⟩
  intro hplain
  have hpos : 0 < furthest (underZero (placements 0 records)) := by
    rw [← hlength]
    exact List.length_pos_iff.2 image.ne_nil
  exact (Image.describes_iff hbytes).2 ⟨hplain.nothingLost, hplain.endsInData hpos⟩

/-- Records in any order, the second laid over part of the first, and a configuration word. -/
def configuredFile : String :=
  ":02001000AABB89\n:01001100CC22\n:0400000012345678E8\n:020000040030CA\n:0100000055AA\n:00000001FF\n"

/-- The image in it. -/
def configuredImage : Image where
  bytes := [0x12, 0x34, 0x56, 0x78, 0xFF, 0xFF, 0xFF, 0xFF, 0xFF, 0xFF, 0xFF, 0xFF, 0xFF, 0xFF, 0xFF,
    0xFF, 0xAA, 0xCC]
  ne_nil := by decide
  length_lt := by decide
  second_erased := by decide

theorem configured_image_describes :
    Image.ofHex configuredFile = .ok configuredImage ∧
      ∃ records, IntelHex.read configuredFile = (records, none) ∧
        Describes (placements 0 records) configuredImage.bytes := by
  have hread : IntelHex.read configuredFile =
      ([.data 0x10 [0xAA, 0xBB], .data 0x11 [0xCC], .data 0 [0x12, 0x34, 0x56, 0x78],
        .extendedLinear 0x30, .data 0 [0x55], .endOfFile], none) := by
    decide +kernel
  have himage : Image.ofHex configuredFile = .ok configuredImage :=
    Image.ofHex_eq_ok_iff.2 ⟨_, hread, by decide +kernel⟩
  obtain ⟨records, hread', -, -, -, hplain⟩ := loaded_image_describes_iff himage
  refine ⟨himage, records, hread', hplain ?_⟩
  obtain rfl := (Prod.mk.inj (hread.symm.trans hread')).1
  unfold Plain
  decide +kernel

/-- A file with a byte at address 16, put there by a base of one paragraph. -/
def paragraphFile : String :=
  ":0400000012345678E8\n:020000020001FB\n:0100000055AA\n:00000001FF\n"

/-- The image in that file ends at address 4. -/
theorem byte_under_paragraph_is_lost :
    ¬ ∀ (text : String) (image : Image) (records : List Record), Image.ofHex text = .ok image →
      IntelHex.read text = (records, none) → Describes (placements 0 records) image.bytes := by
  intro h
  have hread : IntelHex.read paragraphFile =
      ([.data 0 [0x12, 0x34, 0x56, 0x78], .extendedSegment 1, .data 0 [0x55], .endOfFile], none) := by
    decide +kernel
  have himage : Image.ofHex paragraphFile =
      .ok ⟨[0x12, 0x34, 0x56, 0x78], by decide, by decide, by decide⟩ :=
    Image.ofHex_eq_ok_iff.2 ⟨_, hread, rfl⟩
  have hbyte := (h _ _ _ himage hread).kept 16 (by decide) 0x55 (by decide)
  cases hbyte

end SignedBoot.Host
