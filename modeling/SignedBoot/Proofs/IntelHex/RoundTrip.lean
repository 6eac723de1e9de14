import Mathlib.Data.List.Basic
import Mathlib.Tactic.Common
import SignedBoot.IntelHex.Reader
import SignedBoot.IntelHex.Writer
import SignedBoot.Proofs.Bytes

/-!
# Records read back

The line that is written for a record is read as that record if its payload is not too long for the
length byte. A text is read line by line up to the end-of-file record, so the lines of some records
one after the other are read as the records up to the first of that kind, and a file that can be
written is read as the records that it was written from.
-/

namespace SignedBoot

/-! ## Lines -/

namespace Text

theorem cutLine_append {line : List Char} (h : '\n' ∉ line) (rest : List Char) :
    cutLine (line ++ '\n' :: rest) = (line, some rest) := by
  induction line with
  | nil => rfl
  | cons c line ih =>
    obtain ⟨hc, hline⟩ := not_or.1 (List.mem_cons.not.1 h)
    rw [List.cons_append, cutLine, if_neg (Ne.symm hc), ih hline]

/-- A line that holds neither part of a line ending is the first line of the text that it begins. -/
theorem lines_append {line : List Char} (hnewline : '\n' ∉ line) (hreturn : '\r' ∉ line)
    (rest : List Char) : lines (line ++ '\n' :: rest) = line :: lines rest := by
  have hcut := cutLine_append hnewline rest
  have hkept : dropReturn line = line := by
    rw [dropReturn, if_neg fun hlast => hreturn (List.mem_of_getLast? hlast)]
  rw [lines]
  split
  · next front back heq =>
    obtain ⟨rfl, hback⟩ := Prod.mk.inj (hcut.symm.trans heq)
    rw [hkept, Option.some.inj hback]
  · next heq => cases hcut.symm.trans heq
  · next heq => cases hcut.symm.trans heq

end Text

namespace IntelHex

open Text

/-- Most payload bytes that the length byte of a record can say. -/
abbrev maxPayload : Nat := 255

namespace Record

/-- The line of a record without its ending. -/
def lineText (r : Record) : List Char :=
  ':' :: (r.body ++ [checksum r.body]).flatMap Bytes.upperPair

theorem line_eq (r : Record) : r.line = r.lineText ++ ['\n'] := rfl

theorem not_mem_lineText {c : Char} (hcolon : c ≠ ':') (hdigit : Bytes.hexValue? c = none)
    (r : Record) : c ∉ r.lineText := by
  intro h
  obtain rfl | h := List.mem_cons.1 h
  · exact hcolon rfl
  · have hvalue := Bytes.isSome_hexValue?_of_mem h
    rw [hdigit] at hvalue
    cases hvalue

/-! ## One record -/

theorem word_ofNat (w : UInt16) :
    word (UInt8.ofNat (w.toNat / Bytes.span 1)) (UInt8.ofNat (w.toNat / Bytes.span 0)) = w := by
  have hlt : w.toNat < 256 ^ 2 := w.toNat_lt
  show UInt16.ofNat (Bytes.toNat (Bytes.ofNat 2 w.toNat)) = w
  rw [Bytes.toNat_ofNat, Nat.mod_eq_of_lt hlt, UInt16.ofNat_toNat]

/-- The type, the address and the payload of a record make the record. -/
theorem ofParts_eq (r : Record) : ofParts r.kind r.address r.payload = .ok r := by
  cases r with
  | data offset value => rfl
  | endOfFile => rfl
  | extendedSegment base => exact congrArg (Except.ok ∘ extendedSegment) (word_ofNat base)
  | startSegment segment offset =>
    exact congrArg₂ (fun s o => Except.ok (startSegment s o)) (word_ofNat segment) (word_ofNat offset)
  | extendedLinear upper => exact congrArg (Except.ok ∘ extendedLinear) (word_ofNat upper)
  | startLinear addr =>
    have hlt : addr.toNat < 256 ^ 4 := addr.toNat_lt
    show Except.ok (startLinear (UInt32.ofNat (Bytes.toNat (Bytes.ofNat 4 addr.toNat)))) = _
    rw [Bytes.toNat_ofNat, Nat.mod_eq_of_lt hlt, UInt32.ofNat_toNat]

theorem ofBytes_body {r : Record} (h : r.payload.length ≤ maxPayload) :
    ofBytes (r.body ++ [checksum r.body]) = .ok r := by
  have hlen : (UInt8.ofNat r.payload.length).toNat = r.payload.length := by
    rw [UInt8.toNat_ofNat', Nat.mod_eq_of_lt (Nat.lt_succ_of_le h)]
  have hbody : r.body = UInt8.ofNat r.payload.length ::
      UInt8.ofNat (r.address.toNat / Bytes.span 1) ::
      UInt8.ofNat (r.address.toNat / Bytes.span 0) :: r.kind :: r.payload := rfl
  unfold ofBytes
  rw [List.dropLast_concat, List.getLastD_concat]
  simp only [ne_eq, not_true_eq_false, if_false]
  rw [hbody]
  simp only [hlen, not_true_eq_false, if_false, word_ofNat]
  exact ofParts_eq r

/-- A record is read back from its line. -/
theorem ofLine_lineText {r : Record} (h : r.payload.length ≤ maxPayload) :
    ofLine r.lineText = .ok r := by
  have hdigits : ((r.body ++ [checksum r.body]).flatMap Bytes.upperPair).any
      (fun c => (Bytes.hexValue? c).isNone) = false := by
    rw [List.any_eq_false]
    intro c hc
    rw [Option.isNone_iff_eq_none, ← Option.not_isSome_iff_eq_none, not_not]
    exact Bytes.isSome_hexValue?_of_mem hc
  have hlen : ((r.body ++ [checksum r.body]).flatMap Bytes.upperPair).length =
      minDigits + 2 * r.payload.length := by
    rw [Bytes.length_flatMap_upperPair, List.length_append, List.length_singleton]
    show 2 * (r.payload.length + 1 + 1 + 1 + 1 + 1) = 10 + 2 * r.payload.length
    omega
  have hshort : ¬ maxDigits < minDigits + 2 * r.payload.length := by
    have hle : r.payload.length ≤ 255 := h
    show ¬ 10 + 2 * 255 < 10 + 2 * r.payload.length
    omega
  rw [lineText, ofLine, hdigits, hlen, if_neg Bool.false_ne_true,
    if_neg (Nat.not_lt.2 (Nat.le_add_right _ _)), if_neg hshort, Bytes.ofHex?_flatMap_upperPair]
  exact ofBytes_body h

end Record

open Record

/-! ## Texts -/

/-- The lines of some records, whether or not they make a file. -/
def listing (records : List Record) : String :=
  String.ofList (records.flatMap line)

/-- The records up to the first end-of-file record. -/
def throughEnd : List Record → List Record
  | [] => []
  | .endOfFile :: _ => [.endOfFile]
  | r :: rest => r :: throughEnd rest

theorem lines_flatMap_line (records : List Record) :
    lines (records.flatMap line) = records.map lineText := by
  induction records with
  | nil => simp [lines, cutLine]
  | cons r records ih =>
    have hsplit : (r :: records).flatMap line = r.lineText ++ '\n' :: records.flatMap line := by
      rw [List.flatMap_cons, line_eq, List.append_assoc, List.singleton_append]
    rw [hsplit, lines_append (not_mem_lineText (by decide) (by decide) r)
      (not_mem_lineText (by decide) (by decide) r), ih, List.map_cons]

theorem readLines_map_lineText {records : List Record}
    (h : ∀ r ∈ records, r.payload.length ≤ maxPayload) :
    readLines (records.map lineText) = (throughEnd records, none) := by
  induction records with
  | nil => rfl
  | cons r records ih =>
    obtain ⟨hr, hrest⟩ := List.forall_mem_cons.1 h
    rw [List.map_cons, readLines, ofLine_lineText hr]
    cases r with
    | endOfFile => rfl
    | _ =>
      simp only [ih hrest]
      rfl

/-- The lines of records are read as these records, up to the end of the file. -/
theorem read_listing {records : List Record} (h : ∀ r ∈ records, r.payload.length ≤ maxPayload) :
    read (listing records) = (throughEnd records, none) := by
  have hfilter : (records.map lineText).filter (fun line => !line.isEmpty) =
      records.map lineText := by
    rw [List.filter_eq_self]
    intro line hline
    obtain ⟨r, -, rfl⟩ := List.mem_map.1 hline
    rfl
  rw [read, listing, String.toList_ofList, lines_flatMap_line, hfilter, readLines_map_lineText h]

/-- What a list that ends with its only end-of-file record says is said up to its end. -/
theorem throughEnd_of_count_eq_one {records : List Record}
    (hlast : records.getLast? = some .endOfFile) (hcount : records.count .endOfFile = 1) :
    throughEnd records = records := by
  induction records with
  | nil => rfl
  | cons r records ih =>
    cases hrest : records with
    | nil => cases r <;> rfl
    | cons next later =>
      subst hrest
      rw [List.getLast?_cons_cons] at hlast
      have hmem : 0 < (next :: later).count .endOfFile :=
        List.count_pos_iff.2 (List.mem_of_getLast? hlast)
      -- the last record is the one that counts, so this one is no end of the file
      have hne : r ≠ .endOfFile := by
        rintro rfl
        rw [List.count_cons_self] at hcount
        omega
      rw [List.count_cons_of_ne hne] at hcount
      cases r with
      | endOfFile => exact absurd rfl hne
      | _ => exact congrArg (List.cons _) (ih hlast hcount)

/-- A file is read as the records that it was written from. -/
theorem read_write {records : List Record} {text : String} (h : write records = .ok text) :
    text = listing records ∧ (∀ r ∈ records, r.payload.length ≤ maxPayload) ∧
      read text = (records, none) := by
  simp only [write] at h
  split_ifs at h with hlast hcount
  split at h
  · cases h
  · next hfind =>
    cases h
    have hlen : ∀ r ∈ records, r.payload.length ≤ maxPayload := by
      intro r hr
      have hnot := List.find?_eq_none.1 hfind r hr
      simpa using hnot
    refine ⟨rfl, hlen, ?_⟩
    have hthrough := throughEnd_of_count_eq_one (not_not.1 hlast) (not_not.1 hcount)
    exact (read_listing hlen).trans (by rw [hthrough])

end IntelHex

end SignedBoot
