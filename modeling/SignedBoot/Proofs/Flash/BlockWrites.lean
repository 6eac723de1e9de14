import Mathlib.Data.Finset.Card
import Mathlib.Data.List.Basic
import Mathlib.Order.Interval.Finset.Nat
import Mathlib.Tactic.Common
import SignedBoot.Proofs.Flash.Programming

/-!
# A run written block by block

The write latch holds one block, so a run of bytes is cut where its addresses reach a multiple of the
block size, and every part is a command of its own. `cuts` says where that is without going through the
run. If all parts can be written they leave what a single command for the whole run would have left.
Otherwise the first part that cannot be written ends it, and what is left is what a single command for
the parts before it would have left.
-/

namespace SignedBoot.Flash

open Layout

variable {n : Nat}

/-! ## Where a run is cut -/

/-- The blocks that a run of addresses touches. -/
def blocksTouched (addr len : Nat) : Finset Nat :=
  (Finset.Ico addr (addr + len)).image fun a => a / blockSize

/-- The same blocks from the first to the last. -/
def touched (addr : Nat) : (len : Nat) → List Nat
  | 0 => []
  | len + 1 => List.range' (addr / blockSize) ((addr + len) / blockSize - addr / blockSize + 1)

/-- The part of a run that lies in a block, with its own address. -/
def partIn (addr : Nat) (bs : Bytes) (block : Nat) : Nat × Bytes :=
  (max addr (block * blockSize),
    (bs.drop (block * blockSize - addr)).take
      ((block + 1) * blockSize - max addr (block * blockSize)))

/-- A run cut where its addresses reach a multiple of the block size. -/
def cuts (addr : Nat) (bs : Bytes) : List (Nat × Bytes) :=
  (touched addr bs.length).map (partIn addr bs)

theorem mem_touched (addr len block : Nat) :
    block ∈ touched addr len ↔ block ∈ blocksTouched addr len := by
  rw [blocksTouched, Finset.mem_image]
  simp only [Finset.mem_Ico]
  cases len with
  | zero =>
    simp only [touched, List.not_mem_nil, false_iff]
    rintro ⟨a, ha, -⟩
    omega
  | succ len =>
    rw [touched, List.mem_range'_1]
    constructor
    · rintro ⟨hge, hlt⟩
      refine ⟨max addr (block * 64), ?_, ?_⟩
      · change addr / 64 ≤ block at hge
        change block < addr / 64 + ((addr + len) / 64 - addr / 64 + 1) at hlt
        omega
      · change addr / 64 ≤ block at hge
        show max addr (block * 64) / 64 = block
        omega
    · rintro ⟨a, ha, rfl⟩
      show addr / 64 ≤ a / 64 ∧ a / 64 < addr / 64 + ((addr + len) / 64 - addr / 64 + 1)
      omega

theorem nodup_touched (addr len : Nat) : (touched addr len).Nodup := by
  cases len with
  | zero => exact List.nodup_nil
  | succ len => exact List.nodup_range' _

/-- There are as many parts as blocks touched. -/
theorem length_cuts (addr : Nat) (bs : Bytes) :
    (cuts addr bs).length = (blocksTouched addr bs.length).card := by
  have hsame : (touched addr bs.length).toFinset = blocksTouched addr bs.length := by
    ext block
    rw [List.mem_toFinset, mem_touched]
  rw [cuts, List.length_map, ← hsame, List.toFinset_card_of_nodup (nodup_touched addr bs.length)]

/-- A run is all in its first block, or it fills that block and goes on at the start of the next. -/
theorem segments_cases (addr : Nat) {bs : Bytes} (hne : bs ≠ []) :
    (addr % blockSize + bs.length ≤ blockSize ∧ segments addr bs = [(addr, bs)]) ∨
      ∃ room, addr + room = (addr / blockSize + 1) * blockSize ∧ room < bs.length ∧
        segments addr bs = (addr, bs.take room) :: segments (addr + room) (bs.drop room) := by
  by_cases hfits : addr % blockSize + bs.length ≤ blockSize
  · exact Or.inl ⟨hfits, segments_of_fits hne hfits⟩
  · obtain ⟨b, bs, rfl⟩ := List.exists_cons_of_ne_nil hne
    have hlong : ¬ addr % 64 + (b :: bs).length ≤ 64 := hfits
    have hroom : blockSize - addr % blockSize < (b :: bs).length := by
      show 64 - addr % 64 < (b :: bs).length
      omega
    refine Or.inr ⟨blockSize - addr % blockSize, ?_, hroom, ?_⟩
    · show addr + (64 - addr % 64) = (addr / 64 + 1) * 64
      omega
    · rw [segments]
      simp only [List.length_take_of_le (Nat.le_of_lt hroom)]

/-- Parts in later blocks do not depend on what comes before these. -/
theorem partIn_drop {addr room block : Nat} (bs : Bytes)
    (hnext : addr + room = (addr / blockSize + 1) * blockSize) (hblock : addr / blockSize < block) :
    partIn (addr + room) (bs.drop room) block = partIn addr bs block := by
  have hnext' : addr + room = (addr / 64 + 1) * 64 := hnext
  have hblock' : addr / 64 < block := hblock
  have hstart : max (addr + room) (block * blockSize) = max addr (block * blockSize) := by
    show max (addr + room) (block * 64) = max addr (block * 64)
    omega
  have hskip : room + (block * blockSize - (addr + room)) = block * blockSize - addr := by
    show room + (block * 64 - (addr + room)) = block * 64 - addr
    omega
  rw [partIn, partIn, hstart, List.drop_drop, hskip]

theorem partIn_first (addr : Nat) (bs : Bytes) :
    partIn addr bs (addr / blockSize) = (addr, bs.take (blockSize - addr % blockSize)) := by
  have hstart : max addr (addr / blockSize * blockSize) = addr := by
    show max addr (addr / 64 * 64) = addr
    omega
  have hskip : addr / blockSize * blockSize - addr = 0 := by
    show addr / 64 * 64 - addr = 0
    omega
  have hroom : (addr / blockSize + 1) * blockSize - addr = blockSize - addr % blockSize := by
    show (addr / 64 + 1) * 64 - addr = 64 - addr % 64
    omega
  rw [partIn, hstart, hskip, hroom, List.drop_zero]

/-- The segments of a run are its cuts. -/
theorem segments_eq_cuts (addr : Nat) (bs : Bytes) : segments addr bs = cuts addr bs := by
  induction hlen : bs.length using Nat.strongRecOn generalizing addr bs with
  | ind len ih =>
  by_cases hne : bs = []
  · rw [hne, segments_nil]
    rfl
  obtain ⟨rest, hrest⟩ : ∃ rest, bs.length = rest + 1 :=
    Nat.exists_eq_succ_of_ne_zero (List.length_pos_iff.2 hne).ne'
  rw [cuts, hrest, touched]
  rcases segments_cases addr hne with ⟨hfits, hsegments⟩ | ⟨room, hnext, hroom, hsegments⟩
  · have hfits' : addr % 64 + bs.length ≤ 64 := hfits
    have hone : (addr + rest) / blockSize - addr / blockSize = 0 := by
      show (addr + rest) / 64 - addr / 64 = 0
      omega
    have htake : bs.length ≤ blockSize - addr % blockSize := by
      show bs.length ≤ 64 - addr % 64
      omega
    rw [hsegments, hone, List.range'_one, List.map_singleton, partIn_first,
      List.take_of_length_le htake]
  · have hnext' : addr + room = (addr / 64 + 1) * 64 := hnext
    have hroom' : room = blockSize - addr % blockSize := by
      show room = 64 - addr % 64
      omega
    obtain ⟨more, hmore⟩ : ∃ more, (bs.drop room).length = more + 1 := by
      refine Nat.exists_eq_succ_of_ne_zero ?_
      rw [List.length_drop]
      omega
    have hmore' : bs.length - room = more + 1 := by rw [← hmore, List.length_drop]
    have hstart : (addr + room) / blockSize = addr / blockSize + 1 := by
      show (addr + room) / 64 = addr / 64 + 1
      omega
    have hcount : (addr + rest) / blockSize - addr / blockSize =
        (addr + room + more) / blockSize - (addr + room) / blockSize + 1 := by
      show (addr + rest) / 64 - addr / 64 = (addr + room + more) / 64 - (addr + room) / 64 + 1
      omega
    have hlater : cuts (addr + room) (bs.drop room) =
        (List.range' (addr / blockSize + 1) ((addr + rest) / blockSize - addr / blockSize)).map
          (partIn addr bs) := by
      rw [cuts, hmore, touched, hcount, hstart]
      refine List.map_congr_left fun block hblock => partIn_drop bs hnext ?_
      exact (List.mem_range'_1.1 hblock).1
    rw [hsegments, ih _ (by rw [List.length_drop]; omega) _ _ rfl, hlater, List.range'_succ,
      List.map_cons, partIn_first, ← hroom']

/-! ## Parts that are written -/

/-- A part of a run ends inside a memory of `n` bytes. -/
def InBounds (n : Nat) (part : Nat × Bytes) : Prop :=
  part.1 + part.2.length ≤ n

instance (n : Nat) (part : Nat × Bytes) : Decidable (InBounds n part) :=
  inferInstanceAs (Decidable (_ ≤ _))

/-- The front part of a run that its first segments make up ends where the last of these does. -/
theorem inBounds_front_of_segments {addr : Nat} {bs : Bytes} {before rest : List (Nat × Bytes)}
    (h : segments addr bs = before ++ rest) (hall : ∀ part ∈ before, InBounds n part)
    (hne : before ≠ []) : InBounds n (addr, before.flatMap Prod.snd) := by
  induction before generalizing addr bs with
  | nil => exact absurd rfl hne
  | cons part before ih =>
    rcases bs with _ | ⟨b, bs⟩
    · rw [segments_nil] at h
      cases h
    rw [segments, List.cons_append, List.cons.injEq] at h
    obtain ⟨rfl, hrest⟩ := h
    obtain ⟨hfirst, hothers⟩ := List.forall_mem_cons.1 hall
    rw [List.flatMap_cons]
    by_cases hlast : before = []
    · rw [hlast, List.flatMap_nil, List.append_nil]
      exact hfirst
    · have hend := ih hrest hothers hlast
      unfold InBounds at hend ⊢
      rw [List.length_append]
      simp only at hend ⊢
      omega

theorem run_write (addr : Nat) (bs : Bytes) (m : Nor n) :
    (write addr bs).run m =
      if ¬ InBounds n (addr, bs) then (.error .outOfBounds, m)
      else if m.power = some 0 then (.error .powerLoss, m)
      else (.ok (), m.after [programChange (addr, bs)]) := by
  unfold write InBounds
  by_cases hn : addr + bs.length ≤ n
  · rw [if_neg (Nat.not_lt.2 hn), if_neg (not_not_intro hn)]
    exact run_command (programChange (addr, bs)) m
  · rw [if_pos (Nat.not_le.1 hn), if_pos hn]
    rfl

/-- The cells are those that a single command for a run leaves behind. That command goes through unless
the run is empty, when nothing is written either way. -/
structure WrittenAtOnce (before : Nor n) (addr : Nat) (bs : Bytes) (after : Nor n) : Prop where
  goes : bs ≠ [] → ((write addr bs).run before).1 = .ok ()
  cells : after.cells = ((write addr bs).run before).2.cells

theorem writtenAtOnce_front (m : Nor n) {addr : Nat} {bs : Bytes} {before rest : List (Nat × Bytes)}
    (h : segments addr bs = before ++ rest) (hbounds : ∀ part ∈ before, InBounds n part)
    (hpower : m.power.Covers before.length) :
    WrittenAtOnce m addr (before.flatMap Prod.snd) (m.after (programChanges before)) := by
  by_cases hnone : before = []
  · subst hnone
    refine ⟨fun hne => absurd rfl hne, ?_⟩
    rw [List.flatMap_nil, run_write]
    split_ifs <;> rfl
  · have hleft : m.power ≠ some 0 := by
      intro hgone
      rw [hgone, Quota.covers_some, Nat.le_zero, List.length_eq_zero_iff] at hpower
      exact hnone hpower
    have hwrite := run_write addr (before.flatMap Prod.snd) m
    rw [if_neg (not_not_intro (inBounds_front_of_segments h hbounds hnone)), if_neg hleft] at hwrite
    refine ⟨fun _ => by rw [hwrite], ?_⟩
    rw [hwrite]
    exact applyAll_front_of_segments h m.cells

/-- The parts up to some point are written, one command each. -/
theorem run_front (m : Nor n) {before : List (Nat × Bytes)}
    (hbounds : ∀ part ∈ before, InBounds n part)
    (hspace : ∀ part ∈ before, part.1 + part.2.length < addressSpace)
    (hpower : m.power.Covers before.length) :
    ((before.forM commit : Action n Unit)).run m = (.ok (), m.after (programChanges before)) := by
  have hlen : (programChanges before : List (Change n)).length = before.length := List.length_map _
  rw [forM_commit_eq_commands fun part hpart => ⟨hbounds part hpart, hspace part hpart⟩,
    run_commands, Quota.take_of_covers (by rw [hlen]; exact hpower), hlen, if_pos hpower]

/-! ## Parts that are not -/

/-- All parts end inside the memory, and there is power for all of them. -/
def AllWritable (m : Nor n) (parts : List (Nat × Bytes)) : Prop :=
  (∀ part ∈ parts, InBounds n part) ∧ m.power.Covers parts.length

instance (m : Nor n) (parts : List (Nat × Bytes)) : Decidable (AllWritable m parts) :=
  inferInstanceAs (Decidable (_ ∧ _))

/-- Where not all parts can be written there is a first one that cannot. -/
theorem exists_first_unwritable (m : Nor n) {parts : List (Nat × Bytes)}
    (h : ¬ AllWritable m parts) :
    ∃ before part rest, parts = before ++ part :: rest ∧ AllWritable m before ∧
      (InBounds n part → m.power = some before.length) := by
  induction parts using List.reverseRecOn with
  | nil => exact absurd ⟨fun part hpart => absurd hpart List.not_mem_nil, fun _ _ => Nat.zero_le _⟩ h
  | append_singleton parts last ih =>
    by_cases hparts : AllWritable m parts
    · refine ⟨parts, last, [], rfl, hparts, fun hbounds => ?_⟩
      have hshort : ¬ m.power.Covers (parts.length + 1) := by
        intro hcovers
        refine h ⟨fun part hpart => ?_, ?_⟩
        · rcases List.mem_append.1 hpart with hpart | hpart
          · exact hparts.1 part hpart
          · rw [List.mem_singleton.1 hpart]
            exact hbounds
        · rw [List.length_append]
          exact hcovers
      have henough := hparts.2
      rcases hpower : m.power with _ | left
      · rw [hpower] at hshort
        exact absurd (Quota.covers_none _) hshort
      · rw [hpower, Quota.covers_some] at henough hshort
        congr
        omega
    · obtain ⟨before, part, rest, rfl, hbefore, hcause⟩ := ih hparts
      exact ⟨before, part, rest ++ [last], by simp, hbefore, hcause⟩

/-! ## The whole run -/

/-- What is left when all parts of a run have been written. -/
structure Completed (m : Nor n) (addr : Nat) (bs : Bytes) (m' : Nor n) : Prop where
  memory : WrittenAtOnce m addr bs m'
  /-- One command for every block that is touched. -/
  operations : m'.operations = m.operations + (blocksTouched addr bs.length).card

/-- What is left when some part of a run was the first that could not be written. -/
structure StoppedAt (m : Nor n) (addr : Nat) (bs : Bytes) (before : List (Nat × Bytes))
    (part : Nat × Bytes) (fault : Fault) (m' : Nor n) : Prop where
  splits : ∃ rest, cuts addr bs = before ++ part :: rest
  writable : AllWritable m before
  /-- A part that is out of bounds is refused for that, whether or not there is power left. -/
  cause : (fault = .outOfBounds ∧ ¬ InBounds n part) ∨
    (fault = .powerLoss ∧ InBounds n part ∧ m.power = some before.length)
  memory : WrittenAtOnce m addr (before.flatMap Prod.snd) m'
  operations : m'.operations = m.operations + before.length

theorem completed_of_allWritable (m : Nor n) {addr : Nat} {bs : Bytes}
    (hspace : addr + bs.length < addressSpace) (h : AllWritable m (cuts addr bs)) :
    ∃ m', (program addr bs).run m = (.ok (), m') ∧ Completed m addr bs m' := by
  have hinside : ∀ part ∈ cuts addr bs, part.1 + part.2.length < addressSpace := by
    intro part hpart
    rw [← segments_eq_cuts] at hpart
    exact Nat.lt_of_le_of_lt (mem_segments hpart).2 hspace
  have hall : segments addr bs = cuts addr bs ++ [] := by
    rw [segments_eq_cuts, List.append_nil]
  have hmemory := writtenAtOnce_front m hall h.1 h.2
  rw [← segments_eq_cuts, flatMap_segments] at hmemory
  refine ⟨_, ?_, hmemory, ?_⟩
  · rw [program, segments_eq_cuts]
    exact run_front m h.1 hinside h.2
  · rw [← length_cuts, ← segments_eq_cuts]
    exact congrArg (m.operations + ·) (List.length_map _)

theorem stoppedAt_of_not_allWritable (m : Nor n) {addr : Nat} {bs : Bytes}
    (hspace : addr + bs.length < addressSpace) (h : ¬ AllWritable m (cuts addr bs)) :
    ∃ before part fault m', (program addr bs).run m = (.error fault, m') ∧
      StoppedAt m addr bs before part fault m' := by
  obtain ⟨before, part, rest, hsplit, hbefore, hcause⟩ := exists_first_unwritable m h
  have hsegments : segments addr bs = before ++ part :: rest := by rw [segments_eq_cuts, hsplit]
  have hinside : ∀ done ∈ before, done.1 + done.2.length < addressSpace := by
    intro done hdone
    have hmem : done ∈ segments addr bs := by
      rw [hsegments]
      exact List.mem_append_left _ hdone
    exact Nat.lt_of_le_of_lt (mem_segments hmem).2 hspace
  have hfront := run_front m hbefore.1 hinside hbefore.2
  have hrun : (program addr bs).run m =
      ((part :: rest).forM commit).run (m.after (programChanges before)) := by
    have happend : ((before ++ part :: rest).forM commit : Action n Unit) =
        before.forM commit >>= fun _ => (part :: rest).forM commit := List.forM_append
    rw [program, hsegments, happend]
    exact Attempt.run_bind_ok hfront
  have hlen : (programChanges before : List (Change n)).length = before.length := List.length_map _
  have hstop : ∀ fault, (commit part).run (m.after (programChanges before)) =
      (.error fault, m.after (programChanges before)) →
      (program addr bs).run m = (.error fault, m.after (programChanges before)) := by
    intro fault hpart
    rw [hrun]
    exact Attempt.run_bind_error hpart
  have hmemory := writtenAtOnce_front m hsegments hbefore.1 hbefore.2
  have hoperations : (m.after (programChanges before)).operations = m.operations + before.length :=
    congrArg (m.operations + ·) hlen
  by_cases hpart : InBounds n part
  · have hgone : (m.after (programChanges before)).power = some 0 := by
      show m.power.use _ = some 0
      rw [hcause hpart, hlen]
      exact congrArg some (Nat.sub_self _)
    have hfault : (commit part).run (m.after (programChanges before)) =
        (.error .powerLoss, m.after (programChanges before)) := by
      rw [run_commit, if_neg (Nat.not_lt.2 hpart), if_pos hgone]
    exact ⟨before, part, .powerLoss, _, hstop _ hfault, ⟨rest, hsplit⟩, hbefore,
      Or.inr ⟨rfl, hpart, hcause hpart⟩, hmemory, hoperations⟩
  · have hfault : (commit part).run (m.after (programChanges before)) =
        (.error .outOfBounds, m.after (programChanges before)) := by
      rw [run_commit, if_pos (Nat.not_le.1 hpart)]
    exact ⟨before, part, .outOfBounds, _, hstop _ hfault, ⟨rest, hsplit⟩, hbefore,
      Or.inl ⟨rfl, hpart⟩, hmemory, hoperations⟩

/-- A run that can be written in all its parts is written like a single command for the whole of it
would have done, by one command for every block it touches. Otherwise it fails at the first part that
is out of bounds or finds no power left, and the parts before that are written like a single command
for them would have done. Nothing outside of the run is changed in either case. -/
theorem program_completes_or_stops (m : Nor n) (addr : Nat) (bs : Bytes)
    (hspace : addr + bs.length < addressSpace) :
    (AllWritable m (cuts addr bs) →
      ∃ m', (program addr bs).run m = (.ok (), m') ∧ Completed m addr bs m') ∧
    (¬ AllWritable m (cuts addr bs) →
      ∃ before part fault m', (program addr bs).run m = (.error fault, m') ∧
        StoppedAt m addr bs before part fault m') ∧
    ∀ i (hi : i < n), i < addr ∨ addr + bs.length ≤ i →
      ((program addr bs).run m).2.cells[i] = m.cells[i] := by
  refine ⟨completed_of_allWritable m hspace, stoppedAt_of_not_allWritable m hspace, ?_⟩
  intro i hi hout
  obtain ⟨done, hdone, hcells⟩ := exists_prefix_of_forM_commit (segments addr bs) m
  have hmiss : ∀ w ∈ done, i < w.1 ∨ w.1 + w.2.length ≤ i := by
    intro w hw
    have hinside := mem_segments (hdone.subset hw)
    omega
  have hrun : ((program addr bs).run m).2 = m.after (programChanges done) := hcells
  rw [hrun]
  exact getElem_applyAll_programChanges hi hmiss m.cells

/-- Eight bytes from 62 on are written by two commands. If the memory ends at 68 the second of them is
refused, and if the power is cut behind the first the second finds none left. -/
theorem run_across_boundary_stops :
    62 + (List.replicate 8 (0x5A : UInt8)).length < addressSpace ∧
    (∃ m', (program 62 (List.replicate 8 0x5A)).run (Nor.blank 128) = (.ok (), m') ∧
      Completed (Nor.blank 128) 62 (List.replicate 8 0x5A) m') ∧
    (∃ before part fault m', (program 62 (List.replicate 8 0x5A)).run (Nor.blank 68) =
      (.error fault, m') ∧
      StoppedAt (Nor.blank 68) 62 (List.replicate 8 0x5A) before part fault m') ∧
    ∃ before part fault m', (program 62 (List.replicate 8 0x5A)).run ((Nor.blank 128).cutAfter 1) =
      (.error fault, m') ∧
      StoppedAt ((Nor.blank 128).cutAfter 1) 62 (List.replicate 8 0x5A) before part fault m' := by
  have hspace : 62 + (List.replicate 8 (0x5A : UInt8)).length < addressSpace := by decide
  have hwhole : AllWritable (Nor.blank 128) (cuts 62 (List.replicate 8 0x5A)) := by decide
  have hshort : ¬ AllWritable (Nor.blank 68) (cuts 62 (List.replicate 8 0x5A)) := by decide
  have hcut : ¬ AllWritable ((Nor.blank 128).cutAfter 1) (cuts 62 (List.replicate 8 0x5A)) := by
    decide
  exact ⟨hspace, (program_completes_or_stops _ _ _ hspace).1 hwhole,
    (program_completes_or_stops _ _ _ hspace).2.1 hshort,
    (program_completes_or_stops _ _ _ hspace).2.1 hcut⟩

end SignedBoot.Flash
