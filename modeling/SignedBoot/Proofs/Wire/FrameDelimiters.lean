import Mathlib.Data.List.Induction
import Mathlib.Tactic.Common
import SignedBoot.Proofs.Wire.Framing

/-!
# What delimits a frame

Which frames an assembler hands out of an arbitrary stream, said about the stream alone. Escapes are
read from left to right, which makes every byte of the stream an escape, a plain byte or a literal
one; `gather` is what a byte so read does to the bytes collected.

A frame handed out ends at a plain newline and carries the bytes behind its opening `@`, with no
plain marker among them. That `@` need not be plain: a literal one that arrives when nothing is
collected becomes the first byte of the buffer, where the next plain newline takes it for the start
of a frame.
-/

namespace SignedBoot.Wire

/-! ## Reading escapes -/

namespace Reading

/-- What is left of a byte when escapes are taken out. -/
def byte? : Reading → Option UInt8
  | escape => none
  | plain b => some b
  | literal b => some b

/-- A plain `@` or a plain newline. -/
def IsDelimiter (r : Reading) : Prop :=
  r = plain frameStart ∨ r = plain frameEnd

end Reading

/-- Reads a stream whose first byte stands behind an escape if `pending`. -/
def readFrom (pending : Bool) : Bytes → List Reading
  | [] => []
  | b :: bs => Reading.ofByte pending b :: readFrom (Reading.ofByte pending b = .escape) bs

/-- Reads a stream from its beginning. -/
def readings (bs : Bytes) : List Reading :=
  readFrom false bs

/-- The bytes that are left when escapes are taken out. -/
def contents (rs : List Reading) : Bytes :=
  rs.filterMap Reading.byte?

/-- The readings strictly between two positions. -/
def between (rs : List Reading) (i j : Nat) : List Reading :=
  (rs.take j).drop (i + 1)

/-- The frame that stands between an `@` at `i` and a plain newline at `j`: the bytes between the two
are its content, none of them is a plain marker, and a buffer of `n` bytes has room for them. -/
structure Delimits (n : Nat) (rs : List Reading) (i j : Nat) (frame : Frame) : Prop where
  lt : i < j
  ends : rs[j]? = some (.plain frameEnd)
  quiet : ∀ r ∈ between rs i j, ¬ r.IsDelimiter
  frame_eq : frame = Frame.ofContent (contents (between rs i j))
  room : (contents (between rs i j)).length + 2 ≤ n

theorem contents_append (rs rs' : List Reading) :
    contents (rs ++ rs') = contents rs ++ contents rs' :=
  List.filterMap_append

theorem take_readFrom (pending : Bool) (bs : Bytes) (k : Nat) :
    (readFrom pending bs).take k = readFrom pending (bs.take k) := by
  induction bs generalizing pending k with
  | nil => rw [readFrom, List.take_nil, List.take_nil, readFrom]
  | cons b bs ih =>
    cases k with
    | zero => rfl
    | succ k => rw [readFrom, List.take_succ_cons, List.take_succ_cons, readFrom, ih]

/-! ## Runs -/

variable {n : Nat}

namespace Assembler

/-- A frame is completed by a plain newline while an `@` stands first, and what stands behind the
`@` is its content. -/
theorem completes_iff (hn : 1 < n) (s : Assembler n) (b : UInt8) (frame : Frame) :
    (s.feed b).2 = some frame ↔
      Reading.ofByte s.escaped b = .plain frameEnd ∧
        ∃ content, s.collected = frameStart :: content ∧ frame = Frame.ofContent content := by
  rw [(feed_reads hn s b).2.2]
  constructor
  · intro h
    split at h
    · next hcompletes =>
      obtain ⟨content, hcontent⟩ := List.head?_eq_some_iff.1 hcompletes.2
      refine ⟨hcompletes.1, content, hcontent, ?_⟩
      rw [← frame_of_collected hcontent]
      exact (Option.some.inj h).symm
    · cases h
  · rintro ⟨hend, content, hcontent, rfl⟩
    rw [if_pos ⟨hend, by rw [hcontent]; rfl⟩, frame_of_collected hcontent]

theorem collected_after (hn : 1 < n) (s : Assembler n) (bs : Bytes) :
    (s.after bs).collected = (readFrom s.escaped bs).foldl (gather n) s.collected := by
  induction bs generalizing s with
  | nil => rfl
  | cons b bs ih =>
    obtain ⟨hescaped, hcollected, -⟩ := feed_reads hn s b
    rw [after_cons, ih, hescaped, hcollected, readFrom, List.foldl_cons]

theorem getElem?_readFrom (hn : 1 < n) (s : Assembler n) (bs : Bytes) (k : Nat) :
    (readFrom s.escaped bs)[k]? = bs[k]?.map (Reading.ofByte (s.after (bs.take k)).escaped) := by
  induction bs generalizing s k with
  | nil => rfl
  | cons b bs ih =>
    cases k with
    | zero => rfl
    | succ k =>
      have hrest := ih (s.feed b).1 k
      rw [(feed_reads hn s b).1] at hrest
      rw [readFrom, List.take_succ_cons, after_cons]
      exact hrest

theorem mem_go_iff (s : Assembler n) (i : Nat) (bs : Bytes) (j : Nat) (frame : Frame) :
    (j, frame) ∈ (feedAll.go s i bs).2 ↔
      ∃ k b, j = i + k ∧ bs[k]? = some b ∧ ((s.after (bs.take k)).feed b).2 = some frame := by
  induction bs generalizing s i with
  | nil => simp [feedAll.go]
  | cons c bs ih =>
    have hlater : (∃ k b, j = i + (k + 1) ∧ (c :: bs)[k + 1]? = some b ∧
        ((s.after ((c :: bs).take (k + 1))).feed b).2 = some frame) ↔
        (j, frame) ∈ (feedAll.go (s.feed c).1 (i + 1) bs).2 := by
      rw [ih]
      simp only [List.getElem?_cons_succ, List.take_succ_cons, after_cons, Nat.add_assoc,
        Nat.add_comm 1]
    have hsplit : (j, frame) ∈ (feedAll.go s i (c :: bs)).2 ↔
        (j = i ∧ (s.feed c).2 = some frame) ∨
          (j, frame) ∈ (feedAll.go (s.feed c).1 (i + 1) bs).2 := by
      rw [feedAll.go]
      rcases s.feed c with ⟨s', _ | completed⟩
      · simp
      · simp [eq_comm]
    rw [hsplit, ← hlater]
    constructor
    · rintro (⟨rfl, hfirst⟩ | ⟨k, b, hj, hb, hk⟩)
      · exact ⟨0, c, rfl, rfl, hfirst⟩
      · exact ⟨k + 1, b, hj, hb, hk⟩
    · rintro ⟨_ | k, b, hj, hb, hk⟩
      · obtain rfl : c = b := Option.some.inj hb
        exact .inl ⟨hj, hk⟩
      · exact .inr ⟨k, b, hj, hb, hk⟩

end Assembler

/-! ## Openers -/

/-- Where an `@` becomes the first byte collected: a plain one anywhere, a literal one where nothing
is collected. -/
def Opens (n : Nat) (rs : List Reading) (i : Nat) : Prop :=
  rs[i]? = some (.plain frameStart) ∨
    rs[i]? = some (.literal frameStart) ∧ (rs.take i).foldl (gather n) [] = []

theorem opens_take_iff {rs : List Reading} {i k : Nat} :
    Opens n (rs.take k) i ↔ i < k ∧ Opens n rs i := by
  by_cases hi : i < k
  · rw [Opens, List.getElem?_take_of_lt hi, List.take_take, Nat.min_eq_left (Nat.le_of_lt hi)]
    exact ⟨fun h => ⟨hi, h⟩, fun h => h.2⟩
  · have hnone : (rs.take k)[i]? = none := by rw [List.getElem?_take, if_neg hi]
    rw [Opens, hnone]
    simp [hi]

/-- Bytes that are no plain markers are collected behind an `@` while there is room. -/
theorem gather_of_quiet {r : Reading} (hr : ¬ r.IsDelimiter) {content : Bytes}
    (hroom : (content ++ r.byte?.toList).length + 2 ≤ n) :
    gather n (frameStart :: content) r = frameStart :: (content ++ r.byte?.toList) := by
  cases r with
  | escape => exact congrArg _ (List.append_nil content).symm
  | literal b =>
    rw [List.length_append] at hroom
    exact push_of_lt hroom
  | plain b =>
    have hstart : b ≠ frameStart := fun h => hr (.inl (congrArg _ h))
    have hend : b ≠ frameEnd := fun h => hr (.inr (congrArg _ h))
    rw [List.length_append] at hroom
    rw [gather, if_neg hstart, if_neg fun h => hend h.1]
    exact push_of_lt hroom

theorem cases_of_push {held content : Bytes} {b : UInt8} (h : push n held b = frameStart :: content) :
    (held = [] ∧ b = frameStart ∧ content = []) ∨
      ∃ before, held = frameStart :: before ∧ content = before ++ [b] := by
  rw [push] at h
  split at h
  · cases held with
    | nil =>
      cases h
      exact .inl ⟨rfl, rfl, rfl⟩
    | cons first before =>
      cases h
      exact .inr ⟨before, rfl, rfl⟩
  · cases h

/-- What can have put an `@` in front: the byte itself, or an earlier one. -/
theorem cases_of_gather {held content : Bytes} {r : Reading}
    (h : gather n held r = frameStart :: content) :
    (content = [] ∧ (r = .plain frameStart ∨ r = .literal frameStart ∧ held = [])) ∨
      (¬ r.IsDelimiter ∧ ∃ before, held = frameStart :: before ∧
        content = before ++ r.byte?.toList) := by
  cases r with
  | escape =>
    right
    exact ⟨by simp [Reading.IsDelimiter], content, h, (List.append_nil content).symm⟩
  | literal b =>
    obtain ⟨rfl, rfl, rfl⟩ | ⟨before, hheld, hcontent⟩ := cases_of_push h
    · exact .inl ⟨rfl, .inr ⟨rfl, rfl⟩⟩
    · exact .inr ⟨by simp [Reading.IsDelimiter], before, hheld, hcontent⟩
  | plain b =>
    rw [gather] at h
    split at h
    · next hstart =>
      obtain rfl := hstart
      cases h
      exact .inl ⟨rfl, .inl rfl⟩
    next hstart =>
    split at h
    · cases h
    next hend =>
    obtain ⟨-, rfl, -⟩ | ⟨before, rfl, hcontent⟩ := cases_of_push h
    · exact absurd rfl hstart
    · have hquiet : ¬ (Reading.plain b).IsDelimiter := by
        rintro (h | h)
        · exact hstart (Reading.plain.inj h)
        · exact hend ⟨Reading.plain.inj h, rfl⟩
      exact .inr ⟨hquiet, before, rfl, hcontent⟩

/-- An `@` in front of what is collected comes from an opener, and the bytes read since stand behind
it. -/
theorem exists_opener {rs : List Reading} {content : Bytes}
    (h : rs.foldl (gather n) [] = frameStart :: content) :
    ∃ i, Opens n rs i ∧ (∀ r ∈ rs.drop (i + 1), ¬ r.IsDelimiter) ∧
      content = contents (rs.drop (i + 1)) := by
  induction rs using List.reverseRecOn generalizing content with
  | nil => cases h
  | append_singleton rs r ih =>
    rw [List.foldl_concat] at h
    obtain ⟨rfl, hopens⟩ | ⟨hr, before, hheld, rfl⟩ := cases_of_gather h
    · refine ⟨rs.length, ?_, ?_, ?_⟩
      · rw [Opens, List.getElem?_concat_length, List.take_left]
        obtain rfl | ⟨rfl, hempty⟩ := hopens
        · exact .inl rfl
        · exact .inr ⟨rfl, hempty⟩
      · simp
      · simp [contents]
    · obtain ⟨i, hopens, hquiet, rfl⟩ := ih hheld
      have hfront : Opens n ((rs ++ [r]).take rs.length) i := by
        rw [List.take_left]
        exact hopens
      obtain ⟨hi, hopens⟩ := opens_take_iff.1 hfront
      have hdrop : (rs ++ [r]).drop (i + 1) = rs.drop (i + 1) ++ [r] :=
        List.drop_append_of_le_length hi
      refine ⟨i, hopens, ?_, ?_⟩
      · rw [hdrop]
        intro x hx
        obtain hx | hx := List.mem_append.1 hx
        · exact hquiet x hx
        · obtain rfl := List.mem_singleton.1 hx
          exact hr
      · rw [hdrop, contents_append]
        cases r <;> rfl

theorem foldl_gather_of_quiet {rs : List Reading} (hquiet : ∀ r ∈ rs, ¬ r.IsDelimiter)
    {content : Bytes} (hroom : (content ++ contents rs).length + 2 ≤ n) :
    rs.foldl (gather n) (frameStart :: content) = frameStart :: (content ++ contents rs) := by
  induction rs generalizing content with
  | nil => exact congrArg _ (List.append_nil content).symm
  | cons r rs ih =>
    have hcontents : content ++ contents (r :: rs) =
        (content ++ r.byte?.toList) ++ contents rs := by
      rw [List.append_assoc]
      cases r <;> rfl
    rw [hcontents] at hroom ⊢
    have hstep : (content ++ r.byte?.toList).length + 2 ≤ n := by
      rw [List.length_append] at hroom
      omega
    rw [List.foldl_cons, gather_of_quiet (hquiet r List.mem_cons_self) hstep]
    exact ih (fun x hx => hquiet x (List.mem_cons_of_mem _ hx)) hroom

/-- Behind an opener bytes that are no plain markers are collected while there is room. -/
theorem gathered_of_opens {rs : List Reading} {i : Nat} (h : Opens n rs i)
    (hquiet : ∀ r ∈ rs.drop (i + 1), ¬ r.IsDelimiter)
    (hroom : (contents (rs.drop (i + 1))).length + 2 ≤ n) :
    rs.foldl (gather n) [] = frameStart :: contents (rs.drop (i + 1)) := by
  have hfirst : (rs.take (i + 1)).foldl (gather n) [] = [frameStart] := by
    rw [List.take_add_one, List.foldl_append]
    obtain hplain | ⟨hliteral, hempty⟩ := h
    · rw [hplain]
      rfl
    · rw [hliteral, hempty]
      exact push_of_lt (by simp; omega)
  rw [← List.take_append_drop (i + 1) rs, List.foldl_append, hfirst, List.take_append_drop]
  exact foldl_gather_of_quiet hquiet hroom

theorem between_prefix (rs : List Reading) (i : Nat) {k j : Nat} (h : k ≤ j) :
    between rs i k <+: between rs i j := by
  rw [between, between, List.drop_take, List.drop_take]
  exact List.take_prefix_take_left (by omega)

theorem mem_between {rs : List Reading} {i k j : Nat} {r : Reading} (hi : i < k) (hj : k < j)
    (h : rs[k]? = some r) : r ∈ between rs i j := by
  apply List.mem_of_getElem? (i := k - (i + 1))
  rw [between, List.getElem?_drop, List.getElem?_take_of_lt (by omega)]
  rw [← h]
  congr 1
  omega

/-- Between an opener and the newline that closes its frame no other opener stands. -/
theorem Opens.not_lt {rs : List Reading} {i k j : Nat} {frame : Frame} (h : Opens n rs i)
    (hd : Delimits n rs i j frame) (hk : Opens n rs k) (hj : k < j) : ¬ i < k := by
  intro hi
  obtain hplain | ⟨-, hempty⟩ := hk
  · exact hd.quiet _ (mem_between hi hj hplain) (.inl rfl)
  · -- up to there the bytes behind the opener are still collected
    obtain ⟨rest, hrest⟩ := between_prefix rs i (Nat.le_of_lt hj)
    have hquiet : ∀ r ∈ between rs i k, ¬ r.IsDelimiter := by
      intro r hr
      apply hd.quiet
      rw [← hrest]
      exact List.mem_append_left rest hr
    have hroom : (contents (between rs i k)).length + 2 ≤ n := by
      have hd' := hd.room
      rw [← hrest, contents_append, List.length_append] at hd'
      omega
    have hheld := gathered_of_opens (opens_take_iff.2 ⟨hi, h⟩) hquiet hroom
    rw [hempty] at hheld
    cases hheld

theorem Opens.unique {rs : List Reading} {i i' j : Nat} {frame frame' : Frame}
    (h : Opens n rs i) (hd : Delimits n rs i j frame)
    (h' : Opens n rs i') (hd' : Delimits n rs i' j frame') : i = i' := by
  have hge := h.not_lt hd h' hd'.lt
  have hle := h'.not_lt hd' h hd.lt
  omega

/-! ## Frames of a stream -/

section

variable (hn : 1 < n) (bs : Bytes)

/-- The bytes collected by a fresh assembler when a stream has arrived up to a position. -/
theorem collected_take (k : Nat) :
    ((Assembler.empty n (Nat.zero_lt_of_lt hn)).after (bs.take k)).collected =
      ((readings bs).take k).foldl (gather n) [] := by
  rw [Assembler.collected_after hn, readings, take_readFrom]
  rfl

/-- A fresh assembler hands out the frames that stand between an opener and a plain newline, and no
others. -/
theorem mem_feedAll_iff (j : Nat) (frame : Frame) :
    (j, frame) ∈ ((Assembler.empty n (Nat.zero_lt_of_lt hn)).feedAll bs).2 ↔
      ∃ i, Opens n (readings bs) i ∧ Delimits n (readings bs) i j frame := by
  have hread := Assembler.getElem?_readFrom hn (Assembler.empty n (Nat.zero_lt_of_lt hn)) bs
  rw [Assembler.feedAll, Assembler.mem_go_iff]
  constructor
  · rintro ⟨k, b, hj, hb, hk⟩
    obtain rfl : j = k := by omega
    obtain ⟨hend, content, hcontent, rfl⟩ := (Assembler.completes_iff hn _ b frame).1 hk
    have hlen : content.length + 1 < n := by
      have hlt := Assembler.index_lt ((Assembler.empty n (Nat.zero_lt_of_lt hn)).after (bs.take j))
      rw [← Assembler.length_collected, hcontent] at hlt
      exact hlt
    rw [collected_take hn] at hcontent
    obtain ⟨i, hopens, hquiet, rfl⟩ := exists_opener hcontent
    obtain ⟨hi, hopens⟩ := opens_take_iff.1 hopens
    have hends : (readings bs)[j]? = some (.plain frameEnd) := by
      rw [← hend, readings]
      have hj := hread j
      rw [hb] at hj
      exact hj
    exact ⟨i, hopens, hi, hends, hquiet, rfl, hlen⟩
  · rintro ⟨i, hopens, hd⟩
    have hheld := gathered_of_opens (opens_take_iff.2 ⟨hd.lt, hopens⟩) hd.quiet hd.room
    rw [← collected_take hn] at hheld
    have hends := (hread j).symm.trans hd.ends
    obtain ⟨b, hb, hend⟩ := Option.map_eq_some_iff.1 hends
    refine ⟨j, b, (Nat.zero_add j).symm, hb, ?_⟩
    exact (Assembler.completes_iff hn _ b frame).2 ⟨hend, _, hheld, hd.frame_eq⟩

/-- Whether a literal `@` at a position arrives at a fresh assembler with nothing collected. -/
def MeetsEmpty (i : Nat) : Prop :=
  (readings bs)[i]? = some (.literal frameStart) ∧
    ((Assembler.empty n (Nat.zero_lt_of_lt hn)).after (bs.take i)).collected = []

theorem opens_iff (i : Nat) :
    Opens n (readings bs) i ↔
      (readings bs)[i]? = some (.plain frameStart) ∨ MeetsEmpty hn bs i := by
  rw [Opens, MeetsEmpty, collected_take hn]

/-- A fresh assembler hands out a frame at `j` exactly when `j` is a plain newline, at most `n - 2`
bytes without a plain marker stand between it and an `@`, and that `@` is plain or meets an empty
buffer as a literal. So every frame is delimited by a plain `@` exactly when no literal `@` that
meets an empty buffer is followed by the rest of a frame. -/
theorem frames_delimited_iff :
    (∀ j frame, (j, frame) ∈ ((Assembler.empty n (Nat.zero_lt_of_lt hn)).feedAll bs).2 ↔
      ∃ i, ((readings bs)[i]? = some (.plain frameStart) ∨ MeetsEmpty hn bs i) ∧
        Delimits n (readings bs) i j frame) ∧
    ((∀ j frame, (j, frame) ∈ ((Assembler.empty n (Nat.zero_lt_of_lt hn)).feedAll bs).2 →
        ∃ i, (readings bs)[i]? = some (.plain frameStart) ∧ Delimits n (readings bs) i j frame) ↔
      ∀ i j frame, MeetsEmpty hn bs i → ¬ Delimits n (readings bs) i j frame) := by
  have hall : ∀ j frame, (j, frame) ∈ ((Assembler.empty n (Nat.zero_lt_of_lt hn)).feedAll bs).2 ↔
      ∃ i, ((readings bs)[i]? = some (.plain frameStart) ∨ MeetsEmpty hn bs i) ∧
        Delimits n (readings bs) i j frame := by
    intro j frame
    simp only [mem_feedAll_iff hn, opens_iff hn]
  refine ⟨hall, ?_, ?_⟩
  · intro hplain i j frame hliteral hd
    obtain ⟨i', hstart, hd'⟩ := hplain j frame ((hall j frame).2 ⟨i, .inr hliteral, hd⟩)
    obtain rfl : i = i' :=
      Opens.unique ((opens_iff hn bs i).2 (.inr hliteral)) hd (.inl hstart) hd'
    rw [hliteral.1] at hstart
    cases hstart
  · intro hnone j frame hmem
    obtain ⟨i, hstart | hliteral, hd⟩ := (hall j frame).1 hmem
    · exact ⟨i, hstart, hd⟩
    · exact absurd hd (hnone i j frame hliteral)

end

theorem frames_delimited_stop :
    1 < 72 ∧ ∀ j frame,
      (j, frame) ∈ ((Assembler.empty 72).feedAll [0x40, 0x58, 0x0A]).2 →
        ∃ i, (readings [0x40, 0x58, 0x0A])[i]? = some (.plain frameStart) ∧
          Delimits 72 (readings [0x40, 0x58, 0x0A]) i j frame := by
  refine ⟨by decide, (frames_delimited_iff (by decide) [0x40, 0x58, 0x0A]).2.2 ?_⟩
  intro i j frame hliteral
  have hnot : Reading.literal frameStart ∉ readings [0x40, 0x58, 0x0A] := by decide
  exact absurd (List.mem_of_getElem? hliteral.1) hnot

/-- A stream without a plain `@` completes the frame of a command: `@` behind a backslash, `X`, a
newline. -/
theorem literal_start_opens_frame :
    ¬ ∀ (n : Nat) (hn : 3 ≤ n) (bs : Bytes) (j : Nat) (frame : Frame),
      (j, frame) ∈ ((Assembler.empty n (Nat.zero_lt_of_lt hn)).feedAll bs).2 →
        ∃ i, (readings bs)[i]? = some (.plain frameStart) ∧
          Delimits n (readings bs) i j frame := by
  intro h
  have hmem : (3, (⟨some 0x58, []⟩ : Frame)) ∈
      ((Assembler.empty 72).feedAll [0x5C, 0x40, 0x58, 0x0A]).2 := by decide
  obtain ⟨i, hstart, -⟩ := h 72 (by decide) [0x5C, 0x40, 0x58, 0x0A] 3 ⟨some 0x58, []⟩ hmem
  have hnot : Reading.plain frameStart ∉ readings [0x5C, 0x40, 0x58, 0x0A] := by decide
  exact hnot (List.mem_of_getElem? hstart)

-- the same in the payload of an overlong frame, where the buffer has just been emptied
example :
    ((Assembler.empty 4).feedAll [0x40, 0x44, 0x01, 0x02, 0x5C, 0x40, 0x58, 0x0A]).2 =
      [(7, ⟨some 0x58, []⟩)] := by
  decide

end SignedBoot.Wire
