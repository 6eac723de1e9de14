import Mathlib.Data.List.Basic
import Mathlib.Tactic.Common
import SignedBoot.Proofs.Device.BootDecision
import SignedBoot.Proofs.Device.Handshake
import SignedBoot.Proofs.Device.UpdateSession
import SignedBoot.Proofs.Host.UpdateRequests

/-!
# The reset vector through interrupted updates

A single power cut never loses the vector: if it is not at address 0 when the power goes, the copy
behind the first block holds it. But nothing ever reads the copy. The next erase sequence takes for
the vector whatever is at address 0, and it begins by erasing the copy, so a history loses the vector
exactly if one cycle is cut right after block 0 has been erased and a later one gets as far as its
first command.
-/

namespace SignedBoot.Device

open Flash Layout Wire Host

/-! ## What an honest host sends -/

/-- A piece of what a host sends that updates the device to an image: a handshake request, or the
frame of a request of the update. -/
def HonestPiece (image : Image) (signature : Vector UInt8 signatureLen) (piece : Bytes) : Prop :=
  piece = handshakeRequest ∨ ∃ r ∈ updateRequests image signature, r.encode? = some piece

/-- What is wrapped in such a piece. -/
def HonestContent (image : Image) (signature : Vector UInt8 signatureLen) (content : Bytes) :
    Prop :=
  content = [0x42, 0x54, 0x4C] ∨ ∃ r ∈ updateRequests image signature, content = r.content

section
variable {image : Image} {signature : Vector UInt8 signatureLen}

theorem HonestPiece.exists_content {piece : Bytes} (h : HonestPiece image signature piece) :
    ∃ content, HonestContent image signature content ∧ piece = wrap content := by
  rcases h with rfl | ⟨r, hr, hencode⟩
  · exact ⟨[0x42, 0x54, 0x4C], Or.inl rfl, by decide⟩
  · rw [Request.encode?_eq_of_fits (mem_updateRequests hr).1] at hencode
    exact ⟨r.content, Or.inr ⟨r, hr, rfl⟩, (Option.some.inj hencode).symm⟩

/-- Honest pieces one after the other are a stream of wrapped contents. -/
theorem exists_contents {pieces : List Bytes}
    (h : ∀ piece ∈ pieces, HonestPiece image signature piece) :
    ∃ contents : List Bytes, (∀ content ∈ contents, HonestContent image signature content) ∧
      pieces.flatten = contents.flatMap wrap := by
  induction pieces with
  | nil => exact ⟨[], fun _ hc => (by cases hc), rfl⟩
  | cons piece pieces ih =>
    obtain ⟨content, hcontent, rfl⟩ := (h piece List.mem_cons_self).exists_content
    obtain ⟨contents, hcontents, hflatten⟩ := ih fun p hp => h p (List.mem_cons_of_mem _ hp)
    refine ⟨content :: contents, List.forall_mem_cons.2 ⟨hcontent, hcontents⟩, ?_⟩
    rw [List.flatten_cons, List.flatMap_cons, hflatten]

theorem HonestContent.length_lt {content : Bytes} (h : HonestContent image signature content) :
    content.length + 1 < frameCapacity := by
  rcases h with rfl | ⟨r, hr, rfl⟩
  · decide
  · exact Request.length_content_lt (mem_updateRequests hr).1

/-- Whatever all runs of an update preserve, an honest frame preserves. -/
theorem HonestContent.preserves {n : Nat} {P : Vector UInt8 n → Prop}
    (hruns : ∀ r ∈ updateRequests image signature, ∀ w ∈ requestWrites r, ∀ cells,
      P cells → P (programChange w cells))
    {content : Bytes} (h : HonestContent image signature content) {m : Nor n} (hm : P m.cells) :
    P ((handleFrame (Frame.ofContent content)).run m).2.cells := by
  rcases h with rfl | ⟨r, hr, rfl⟩
  · -- a handshake request carries no command, so it is refused
    exact hm
  · obtain ⟨hfits, hbytes⟩ := mem_updateRequests hr
    obtain ⟨done, hdone, hafter⟩ := exists_prefix_of_execute r m
    rw [handleFrame_content hfits hbytes, hafter]
    refine applyAll_preserves (fun change hchange cells hcells => ?_) hm
    obtain ⟨w, hw, rfl⟩ := List.mem_map.1 hchange
    exact hruns r hr w (hdone.subset hw) cells hcells

/-- The runs of an update stay above the vector, and at most one of them reaches into the second
block: the piece of the image that belongs there. -/
theorem mem_requestWrites_update {r : Request} (hr : r ∈ updateRequests image signature)
    {w : Nat × Bytes} (hw : w ∈ requestWrites r) :
    4 ≤ w.1 ∧ (w.1 + w.2.length ≤ 64 ∨ w = (64, (image.bytes.drop 64).take 64) ∨ 128 ≤ w.1) := by
  rcases List.mem_append.1 hr with hr | hr
  swap
  · obtain rfl := List.mem_singleton.1 hr
    cases hw
  rcases List.mem_append.1 hr with hr | hr
  · obtain ⟨⟨addr, chunk⟩, hchunk, rfl⟩ := List.mem_map.1 hr
    obtain ⟨haligned, hne, hlen, -, hbytes⟩ := mem_chunks hchunk
    have hlen64 : chunk.length ≤ 64 := hlen
    simp only [requestWrites, chunkWrites] at hw haligned hbytes
    split at hw
    · rcases List.mem_append.1 hw with hw | hw
      · have hrange := mem_segments hw
        have htake : (chunk.take vectorLen).length ≤ 4 := List.length_take_le _ _
        have hstart : 4 ≤ w.1 := hrange.1
        have hend : w.1 + w.2.length ≤ 4 + (chunk.take vectorLen).length := hrange.2
        omega
      · have hrange := mem_segments hw
        have hdrop : (chunk.drop (2 * vectorLen)).length = chunk.length - 8 := List.length_drop
        have hstart : 8 ≤ w.1 := hrange.1
        have hend : w.1 + w.2.length ≤ 8 + (chunk.drop (2 * vectorLen)).length := hrange.2
        omega
    · next h0 =>
      by_cases hsecond : addr = 64
      · subst hsecond
        have hone : segments 64 chunk = [(64, chunk)] :=
          segments_of_fits hne (show 0 + chunk.length ≤ 64 by omega)
        rw [hone] at hw
        obtain rfl := List.mem_singleton.1 hw
        exact ⟨show 4 ≤ 64 by decide, Or.inr (Or.inl (congrArg (64, ·) hbytes))⟩
      · have hstart := (mem_segments hw).1
        omega
  · simp only [List.mem_cons, List.not_mem_nil, or_false] at hr
    rcases hr with rfl | rfl
    · have hstart : 0x5FFD ≤ w.1 := (mem_segments hw).1
      omega
    · have hstart : 0x5FBD ≤ w.1 := (mem_segments hw).1
      omega

/-- Whatever all runs of an update preserve, a session with an honest host preserves. -/
theorem serve_preserves {n : Nat} {P : Vector UInt8 n → Prop}
    (hruns : ∀ r ∈ updateRequests image signature, ∀ w ∈ requestWrites r, ∀ cells,
      P cells → P (programChange w cells))
    {contents : List Bytes} (hcontents : ∀ content ∈ contents, HonestContent image signature content)
    {link : Script} (hon : link.receiving = true)
    (harrives : Script.arriving link.incoming <+: contents.flatMap wrap) {m : Nor n}
    (hm : P m.cells) :
    P (serve ⟨m, Assembler.empty frameCapacity⟩ link).session.flash.cells := by
  have hserved := serve_eq_replay ⟨m, Assembler.empty frameCapacity⟩ link hon
  rw [hserved.flash]
  refine replay_preserves (fun frame hframe m' hm' => ?_) link.sendsLeft hm
  have hframes : (Assembler.empty frameCapacity).frames (contents.flatMap wrap) =
      contents.map Frame.ofContent :=
    Assembler.feed_wraps rfl fun c hc => (hcontents c hc).length_lt
  have hmem := (Assembler.frames_prefix _ harrives).subset hframe
  rw [hframes] at hmem
  obtain ⟨content, hcontent, rfl⟩ := List.mem_map.1 hmem
  exact (hcontents content hcontent).preserves hruns hm'

end

/-! ## Power cycles -/

/-- One power-on: what is on the line, and after how many commands the power is cut, if it is. -/
structure PowerCycle where
  /-- The channel. -/
  link : Script
  /-- Number of commands that complete before the power is cut. -/
  cut : Quota
  /-- The image that the host updates to. -/
  image : Image
  /-- The signature of the image. -/
  signature : Vector UInt8 signatureLen
  /-- What the host sends, whole. -/
  pieces : List Bytes
  /-- The host is honest. -/
  honest : ∀ piece ∈ pieces, HonestPiece image signature piece
  /-- The bytes that arrive are those that the host sends, as far as they come. -/
  arrives : Script.arriving link.incoming <+: pieces.flatten

namespace PowerCycle

/-- The memory after a power-on. -/
def run (check : Check) (key : Vector UInt8 33) (c : PowerCycle) (m : Nor flashSize) :
    Nor flashSize :=
  (powerOn check key ⟨{ m with power := c.cut }, c.link⟩).board.flash

/-- The cycle gets as far as the first command of an erase sequence. -/
def Erases (c : PowerCycle) : Prop :=
  HostHeard c.link ∧ c.cut ≠ some 0

/-- The power is cut right after block 0 has been erased. -/
def Tears (c : PowerCycle) : Prop :=
  HostHeard c.link ∧ c.cut = some 3

/-- The image has the given bytes where the vector is backed up. -/
def Spells (c : PowerCycle) (vector : Bytes) : Prop :=
  ∀ i (hi : i < vector.length), c.image.bytes[vectorBackup + i]?.getD erased = vector[i]

variable {check : Check} {key : Vector UInt8 33} {c : PowerCycle} {m : Nor flashSize}

theorem run_of_unheard (h : ¬ HostHeard c.link) : (c.run check key m).cells = m.cells := by
  have hflash : (powerOn check key ⟨{ m with power := c.cut }, c.link⟩).board.flash =
      { m with power := c.cut } := powerOn_flash h check key
  unfold run
  rw [hflash]

/-- With a host the cycle is an update, and what is still to arrive is whole pieces again. -/
theorem exists_run_eq_update (h : HostHeard c.link) :
    ∃ link : Script, ∃ contents : List Bytes,
      (∀ content ∈ contents, HonestContent c.image c.signature content) ∧
        Script.arriving link.incoming <+: contents.flatMap wrap ∧
        c.run check key m = (update ⟨{ m with power := c.cut }, link⟩).board.flash := by
  rcases hawait : awaitHandshake.run c.link with ⟨heard, link⟩
  have hheard : heard = .ok true := by
    unfold HostHeard at h
    rw [hawait] at h
    exact h
  subst hheard
  have hrun : c.run check key m = (update ⟨{ m with power := c.cut }, link⟩).board.flash := by
    unfold run powerOn
    rw [hawait]
  obtain ⟨noise, harriving, -⟩ := of_awaitHandshake_eq_true hawait
  obtain ⟨contents, hcontents, hflatten⟩ := exists_contents c.honest
  obtain ⟨missing, hall⟩ := c.arrives
  -- the request ends with a newline that no backslash stands before, so it ends a piece
  have hsplit : contents.flatMap wrap = (noise ++ [0x40, 0x42, 0x54]) ++
      0x4C :: frameEnd :: (Script.arriving link.incoming ++ missing) := by
    rw [← hflatten, ← hall, harriving]
    simp [handshakeRequest]
  obtain ⟨tail, htail, hrest⟩ := exists_suffix_of_flatMap_wrap (by decide) (by decide) hsplit
  refine ⟨link, tail, fun content hc => hcontents content (htail.subset hc), ?_, hrun⟩
  rw [← hrest]
  exact List.prefix_append _ _

/-- If the power is cut during the erase sequence, the cells are those after the commands up to the
cut. -/
theorem run_cells_of_cut (h : HostHeard c.link) (hcut : ¬ c.cut.Covers (areaChanges m).length) :
    (c.run check key m).cells = applyAll (c.cut.take (areaChanges m)) m.cells := by
  obtain ⟨link, contents, -, -, hrun⟩ := exists_run_eq_update h
  have herase := run_eraseBelow_loaderBase { m with power := c.cut }
  have hshort : ¬ Quota.Covers c.cut (areaChanges { m with power := c.cut }).length := hcut
  rw [if_neg hshort] at herase
  rw [hrun, update_flash_of_error herase link]
  rfl

/-- What holds after the erase sequence, as far as it got, and is preserved by all runs of the
update, holds after the cycle. -/
theorem run_preserves (h : HostHeard c.link) {P : Vector UInt8 flashSize → Prop}
    (hruns : ∀ r ∈ updateRequests c.image c.signature, ∀ w ∈ requestWrites r, ∀ cells,
      P cells → P (programChange w cells))
    (herased : P (applyAll (c.cut.take (areaChanges m)) m.cells)) : P (c.run check key m).cells := by
  by_cases hcut : c.cut.Covers (areaChanges m).length
  · obtain ⟨link, contents, hcontents, harrives, hrun⟩ := exists_run_eq_update h
    have herase := run_eraseBelow_loaderBase { m with power := c.cut }
    have henough : Quota.Covers c.cut (areaChanges { m with power := c.cut }).length := hcut
    rw [if_pos henough] at herase
    rw [hrun]
    rcases update_flash_of_ok herase link with hflash | ⟨session, hincoming, hon, hflash⟩
    · rw [hflash]
      exact herased
    · rw [hflash]
      exact serve_preserves hruns hcontents hon (by rw [hincoming]; exact harrives) herased
  · rw [run_cells_of_cut h hcut]
    exact herased

/-! ## One cycle -/

variable {vector : Bytes}

theorem storedAt_zero_iff (hlen : vector.length = vectorLen) :
    StoredAt vector 0 m.cells ↔ m.slice 0 vectorLen = vector := by
  have hslice := storedAt_iff_slice (m := m) (show 0 + vector.length ≤ flashSize by rw [hlen]; decide)
  rw [hlen] at hslice
  exact hslice

theorem areaChanges_eq (hlen : vector.length = vectorLen) (h : StoredAt vector 0 m.cells) :
    areaChanges m = eraseChanges vector (loaderBase / blockSize) := by
  unfold areaChanges
  rw [(storedAt_zero_iff hlen).1 h]

theorem three_lt_length_areaChanges (m : Nor flashSize) : 3 < (areaChanges m).length := by
  rw [length_areaChanges]
  decide

/-- A cycle carries out a front part of the erase sequence. -/
theorem exists_take_eq (c : PowerCycle) (m : Nor flashSize) :
    ∃ k, c.cut.take (areaChanges m) = (areaChanges m).take k ∧ (c.cut ≠ some 0 → 0 < k) ∧
      (c.cut ≠ some 3 → k ≠ 3) := by
  have hlen := three_lt_length_areaChanges m
  rcases hcut : c.cut with _ | k
  · refine ⟨(areaChanges m).length, List.take_length.symm, fun _ => by omega, fun _ => by omega⟩
  · refine ⟨k, rfl, fun h => Nat.pos_of_ne_zero ?_, fun h => ?_⟩
    · rintro rfl
      exact h rfl
    · rintro rfl
      exact h rfl

theorem run_cells_of_not_erases (h : ¬ c.Erases) : (c.run check key m).cells = m.cells := by
  by_cases hheard : HostHeard c.link
  · have hcut : c.cut = some 0 := by
      by_contra hne
      exact h ⟨hheard, hne⟩
    have hshort : ¬ c.cut.Covers (areaChanges m).length := by
      rw [hcut, Quota.covers_some]
      exact Nat.not_le.2 (Nat.lt_trans (by decide) (three_lt_length_areaChanges m))
    rw [run_cells_of_cut hheard hshort, hcut]
    rfl
  · exact run_of_unheard hheard

/-- A cycle that is not cut behind the erase of block 0 leaves the vector in its place. -/
theorem storedAt_run (hlen : vector.length = vectorLen) (hstored : StoredAt vector 0 m.cells)
    (h : ¬ c.Tears) : StoredAt vector 0 (c.run check key m).cells := by
  by_cases hheard : HostHeard c.link
  · have hcut : c.cut ≠ some 3 := fun hcut => h ⟨hheard, hcut⟩
    obtain ⟨k, htake, -, hk⟩ := exists_take_eq c m
    refine run_preserves hheard (fun r hr w hw cells hcells => ?_) ?_
    · -- the runs of the update stay above the vector
      refine hcells.of_unchanged fun i hi _ hlt => ?_
      have hlen4 : vector.length = 4 := hlen
      have habove := (mem_requestWrites_update hr hw).1
      exact getElem_programCells_of_not_mem hi (Or.inl (by omega))
    · rw [htake, areaChanges_eq hlen hstored]
      exact storedAt_take_eraseChanges hlen (by decide) hstored (hk hcut)
  · rw [run_of_unheard hheard]
    exact hstored

/-- A cycle that is cut there leaves the vector in the backup, and blank in its place. -/
theorem storedAt_run_of_tears (hlen : vector.length = vectorLen)
    (hstored : StoredAt vector 0 m.cells) (h : c.Tears) :
    StoredAt vector vectorBackup (c.run check key m).cells ∧
      StoredAt blankVector 0 (c.run check key m).cells := by
  obtain ⟨hheard, hcut⟩ := h
  have hshort : ¬ c.cut.Covers (areaChanges m).length := by
    rw [hcut, Quota.covers_some]
    exact Nat.not_le.2 (three_lt_length_areaChanges m)
  rw [run_cells_of_cut hheard hshort, hcut, areaChanges_eq hlen hstored]
  exact storedAt_take_three hlen (by decide) m.cells

/-- The cells of the backup are erased, or hold what the image has there. -/
def BackupOverwritten (image : Image) (cells : Vector UInt8 flashSize) : Prop :=
  (∀ i (hi : i < flashSize), 64 ≤ i → i < 68 → cells[i] = erased) ∨
    ∀ i (hi : i < flashSize), 64 ≤ i → i < 68 → cells[i] = image.bytes[i]?.getD erased

/-- Programming the second piece of an image clears its bits there. -/
theorem getElem_program_second (image : Image) (cells : Vector UInt8 flashSize) {i : Nat}
    (hi : i < flashSize) (hge : 64 ≤ i) (hlt : i < 68) :
    (programChange (64, (image.bytes.drop 64).take 64) cells)[i] =
      cells[i] &&& image.bytes[i]?.getD erased := by
  obtain ⟨k, rfl⟩ := Nat.exists_eq_add_of_le hge
  have hlen : ((image.bytes.drop 64).take 64).length = min 64 (image.bytes.length - 64) := by
    rw [List.length_take, List.length_drop]
  unfold programChange
  by_cases hk : 64 + k < image.bytes.length
  · have hk' : k < ((image.bytes.drop 64).take 64).length := by omega
    rw [getElem_programCells_of_mem hi hk', List.getElem_take, List.getElem_drop,
      List.getElem?_eq_getElem hk]
    rfl
  · have hmiss : 64 + ((image.bytes.drop 64).take 64).length ≤ 64 + k := by omega
    rw [getElem_programCells_of_not_mem hi (Or.inr hmiss), List.getElem?_eq_none (by omega)]
    exact (and_erased _).symm

theorem BackupOverwritten.programChange {image : Image} {signature : Vector UInt8 signatureLen}
    {r : Request} (hr : r ∈ updateRequests image signature) {w : Nat × Bytes}
    (hw : w ∈ requestWrites r) {cells : Vector UInt8 flashSize}
    (h : BackupOverwritten image cells) : BackupOverwritten image (programChange w cells) := by
  have hkeep : w.1 + w.2.length ≤ 64 ∨ 128 ≤ w.1 →
      BackupOverwritten image (Flash.programChange w cells) := by
    intro hapart
    have hsame : ∀ i (hi : i < flashSize), 64 ≤ i → i < 68 →
        (Flash.programChange w cells)[i] = cells[i] := by
      intro i hi hge hlt
      exact getElem_programCells_of_not_mem hi (by omega)
    rcases h with h | h
    · exact Or.inl fun i hi hge hlt => (hsame i hi hge hlt).trans (h i hi hge hlt)
    · exact Or.inr fun i hi hge hlt => (hsame i hi hge hlt).trans (h i hi hge hlt)
  rcases (mem_requestWrites_update hr hw).2 with hlow | rfl | hhigh
  · exact hkeep (Or.inl hlow)
  · refine Or.inr fun i hi hge hlt => ?_
    rw [getElem_program_second image cells hi hge hlt]
    rcases h with h | h
    · rw [h i hi hge hlt, erased_and]
    · rw [h i hi hge hlt, UInt8.and_self]
  · exact hkeep (Or.inr hhigh)

/-- An erase sequence that starts from a blank vector erases the backup, and whatever the update
brings after that comes from the image. -/
theorem overwritten_run (h : c.Erases) (hblank : StoredAt blankVector 0 m.cells) :
    StoredAt blankVector 0 (c.run check key m).cells ∧
      BackupOverwritten c.image (c.run check key m).cells := by
  obtain ⟨hheard, hcut⟩ := h
  obtain ⟨k, htake, hk, -⟩ := exists_take_eq c m
  refine run_preserves hheard (P := fun cells =>
    StoredAt blankVector 0 cells ∧ BackupOverwritten c.image cells) ?_ ?_
  · rintro r hr w hw cells ⟨hzero, hbackup⟩
    refine ⟨hzero.of_unchanged fun i hi _ (hlt : i < 0 + 4) => ?_, hbackup.programChange hr hw⟩
    have habove := (mem_requestWrites_update hr hw).1
    exact getElem_programCells_of_not_mem hi (Or.inl (by omega))
  · rw [htake, areaChanges_eq List.length_replicate hblank]
    obtain ⟨hzero, hbackup⟩ := storedAt_take_blank hblank (hk hcut)
    refine ⟨hzero, Or.inl fun i hi hge hlt => ?_⟩
    have hcell := hbackup.getElem hi hge (show i - 64 < 4 by omega)
    rw [List.getElem_replicate] at hcell
    exact hcell

theorem storedAt_run_of_blank (hblank : StoredAt blankVector 0 m.cells) :
    StoredAt blankVector 0 (c.run check key m).cells := by
  by_cases herases : c.Erases
  · exact (overwritten_run herases hblank).1
  · rw [run_cells_of_not_erases herases]
    exact hblank

/-- The vector is in its place or in the backup. -/
def VectorKept (vector : Bytes) (m : Nor flashSize) : Prop :=
  m.slice 0 vectorLen = vector ∨ m.slice vectorBackup vectorLen = vector

theorem vectorKept_iff (hlen : vector.length = vectorLen) :
    VectorKept vector m ↔ StoredAt vector 0 m.cells ∨ StoredAt vector vectorBackup m.cells := by
  have hbackup := storedAt_iff_slice (m := m)
    (show vectorBackup + vector.length ≤ flashSize by rw [hlen]; decide)
  rw [hlen] at hbackup
  rw [storedAt_zero_iff hlen, hbackup]
  rfl

/-- Such an update loses the vector, unless the image happens to bring it back. -/
theorem not_kept_run (hlen : vector.length = vectorLen) (hne : vector ≠ blankVector)
    (hspells : ¬ c.Spells vector) (h : c.Erases) (hblank : StoredAt blankVector 0 m.cells) :
    ¬ VectorKept vector (c.run check key m) := by
  have hsame : vector.length = blankVector.length := by rw [hlen, List.length_replicate]
  have hlen4 : vector.length = 4 := hlen
  obtain ⟨hzero, hbackup⟩ := overwritten_run h hblank
  rw [vectorKept_iff hlen]
  rintro (hkept | hkept)
  · exact hne (hkept.unique hzero hsame (show 0 + vector.length ≤ 0x8000 by omega))
  · have hend : 64 + vector.length ≤ 0x8000 := by omega
    rcases hbackup with hblank' | himage
    · have hstored := storedAt_blankVector hblank'
      exact hne (hkept.unique hstored hsame hend)
    · refine hspells fun i hi => ?_
      have hn : 64 + i < flashSize := show 64 + i < 0x8000 by omega
      rw [← hkept i hi hn]
      exact (himage (64 + i) hn (by omega) (by omega)).symm

/-! ## Histories -/

/-- The memory after power-ons one after the other. -/
def afterCycles (check : Check) (key : Vector UInt8 33) (m : Nor flashSize)
    (cycles : List PowerCycle) : Nor flashSize :=
  cycles.foldl (fun m c => c.run check key m) m

/-- No cycle gets to an erase sequence once an earlier one was cut behind the erase of block 0. -/
def Untorn (cycles : List PowerCycle) : Prop :=
  cycles.Pairwise fun c d => c.Tears → ¬ d.Erases

theorem afterCycles_cells {cycles : List PowerCycle} (h : ∀ c ∈ cycles, ¬ c.Erases) :
    (afterCycles check key m cycles).cells = m.cells := by
  induction cycles generalizing m with
  | nil => rfl
  | cons c cycles ih =>
    have hrest := @ih (c.run check key m) fun d hd => h d (List.mem_cons_of_mem _ hd)
    exact hrest.trans (run_cells_of_not_erases (h c List.mem_cons_self))

/-- A vector that is in its place stays there as long as no cycle is cut behind the erase of block 0.
After the first that is, it is in the backup, and nothing may be erased any more. -/
theorem kept_of_untorn (hlen : vector.length = vectorLen) (hstored : StoredAt vector 0 m.cells)
    {cycles : List PowerCycle} (h : Untorn cycles) :
    VectorKept vector (afterCycles check key m cycles) := by
  induction cycles generalizing m with
  | nil => exact (vectorKept_iff hlen).2 (Or.inl hstored)
  | cons c cycles ih =>
    obtain ⟨hhead, htail⟩ := List.pairwise_cons.1 h
    by_cases htears : c.Tears
    · have hbackup : StoredAt vector vectorBackup (c.run check key m).cells :=
        (storedAt_run_of_tears hlen hstored htears).1
      have hsame : (afterCycles check key (c.run check key m) cycles).cells =
          (c.run check key m).cells := afterCycles_cells fun d hd => hhead d hd htears
      refine (vectorKept_iff hlen).2 (Or.inr ?_)
      rw [← hsame] at hbackup
      exact hbackup
    · exact ih (storedAt_run hlen hstored htears) htail

/-- A blank vector stays blank through every history. -/
theorem storedAt_afterCycles_of_blank (hblank : StoredAt blankVector 0 m.cells)
    (cycles : List PowerCycle) :
    StoredAt blankVector 0 (afterCycles check key m cycles).cells := by
  induction cycles generalizing m with
  | nil => exact hblank
  | cons c cycles ih => exact ih (storedAt_run_of_blank hblank)

/-- Once the vector is blank in its place, a history that keeps it never erases again. -/
theorem not_erases_of_kept (hlen : vector.length = vectorLen) (hne : vector ≠ blankVector)
    (hblank : StoredAt blankVector 0 m.cells) {cycles : List PowerCycle}
    (hspells : ∀ c ∈ cycles, ¬ c.Spells vector)
    (hkept : ∀ done, done <+: cycles → VectorKept vector (afterCycles check key m done)) :
    ∀ c ∈ cycles, ¬ c.Erases := by
  induction cycles generalizing m with
  | nil =>
    intro c hc
    cases hc
  | cons c cycles ih =>
    have hidle : ¬ c.Erases := by
      intro herases
      have hlost : ¬ VectorKept vector (c.run check key m) :=
        not_kept_run hlen hne (hspells c List.mem_cons_self) herases hblank
      exact hlost (hkept [c] (List.prefix_append [c] cycles))
    have hblank' : StoredAt blankVector 0 (c.run check key m).cells := storedAt_run_of_blank hblank
    refine List.forall_mem_cons.2 ⟨hidle, ih hblank' ?_ fun done hdone => ?_⟩
    · exact fun d hd => hspells d (List.mem_cons_of_mem _ hd)
    · exact hkept (c :: done) (List.cons_prefix_cons.2 ⟨rfl, hdone⟩)

theorem untorn_of_kept (hlen : vector.length = vectorLen) (hne : vector ≠ blankVector)
    (hstored : StoredAt vector 0 m.cells) {cycles : List PowerCycle}
    (hspells : ∀ c ∈ cycles, ¬ c.Spells vector)
    (hkept : ∀ done, done <+: cycles → VectorKept vector (afterCycles check key m done)) :
    Untorn cycles := by
  induction cycles generalizing m with
  | nil => exact List.Pairwise.nil
  | cons c cycles ih =>
    have hspells' : ∀ d ∈ cycles, ¬ d.Spells vector := fun d hd =>
      hspells d (List.mem_cons_of_mem _ hd)
    have hkept' : ∀ done, done <+: cycles →
        VectorKept vector (afterCycles check key (c.run check key m) done) := fun done hdone =>
      hkept (c :: done) (List.cons_prefix_cons.2 ⟨rfl, hdone⟩)
    by_cases htears : c.Tears
    · have hblank : StoredAt blankVector 0 (c.run check key m).cells :=
        (storedAt_run_of_tears hlen hstored htears).2
      have hidle := not_erases_of_kept hlen hne hblank hspells' hkept'
      refine List.pairwise_cons.2 ⟨fun d hd _ => hidle d hd, ?_⟩
      exact List.pairwise_of_forall_mem_list fun d _ e he _ => hidle e he
    · refine List.pairwise_cons.2 ⟨fun d _ h => absurd h htears, ?_⟩
      exact ih (storedAt_run hlen hstored htears) hspells' hkept'

/-- A history keeps the vector after every power-on if the vector is blank or the history untorn,
whatever the images are. If none of them spells the vector where the backup is, it does so only
then. -/
theorem vector_survives_cycles_iff (check : Check) (key : Vector UInt8 33) (m : Nor flashSize)
    (cycles : List PowerCycle) :
    (m.slice 0 vectorLen = blankVector ∨ Untorn cycles → ∀ done, done <+: cycles →
      VectorKept (m.slice 0 vectorLen) (afterCycles check key m done)) ∧
    ((∀ c ∈ cycles, ¬ c.Spells (m.slice 0 vectorLen)) →
      (∀ done, done <+: cycles →
        VectorKept (m.slice 0 vectorLen) (afterCycles check key m done)) →
      m.slice 0 vectorLen = blankVector ∨ Untorn cycles) := by
  have hlen : (m.slice 0 vectorLen).length = vectorLen := m.length_slice (by decide)
  have hstored : StoredAt (m.slice 0 vectorLen) 0 m.cells := (storedAt_zero_iff hlen).2 rfl
  constructor
  · rintro (hblank | huntorn) done hdone
    · rw [hblank] at hstored ⊢
      have hkept := @storedAt_afterCycles_of_blank check key _ hstored done
      exact (vectorKept_iff List.length_replicate).2 (Or.inl hkept)
    · exact kept_of_untorn hlen hstored (huntorn.sublist hdone.sublist)
  · intro hspells hkept
    by_cases hblank : m.slice 0 vectorLen = blankVector
    · exact Or.inl hblank
    · exact Or.inr (untorn_of_kept hlen hblank hstored hspells hkept)

/-- A cycle in which a host asks for an update and says no more. -/
def knock (cut : Quota) : PowerCycle where
  link := Script.ofEvents (handshakeRequest.map .byte) none true
  cut := cut
  image := .ofByte 0x00
  signature := Vector.replicate signatureLen 0
  pieces := [handshakeRequest]
  honest := by
    intro piece hpiece
    exact Or.inl (List.mem_singleton.1 hpiece)
  arrives := List.prefix_rfl

theorem hostHeard_knock (cut : Quota) : HostHeard (knock cut).link := by
  have harrives : handshakeRequest <+:
      Script.arriving ((knock cut).link.incoming.take pollLimit) := List.prefix_rfl
  obtain ⟨link, hrun, -⟩ := awaitHandshake_finds harrives
  unfold HostHeard
  rw [hrun]

/-- A host that knocks again after the power was cut behind the erase of block 0 loses any vector that
is not blank. -/
theorem not_kept_of_second_knock (hlen : vector.length = vectorLen) (hne : vector ≠ blankVector)
    (hstored : StoredAt vector 0 m.cells) :
    ¬ VectorKept vector (afterCycles check key m [knock (some 3), knock none]) := by
  have hblank : StoredAt blankVector 0 ((knock (some 3)).run check key m).cells :=
    (storedAt_run_of_tears hlen hstored ⟨hostHeard_knock (some 3), rfl⟩).2
  have hspells : ¬ (knock none).Spells vector := by
    intro hspells
    -- the image ends before the backup, so it spells a blank vector there
    apply hne
    refine List.ext_getElem hlen fun i hi _ => ?_
    rw [← hspells i hi, List.getElem_replicate, List.getElem?_eq_none]
    · rfl
    · show 1 ≤ 64 + i
      omega
  have hlost := @not_kept_run check key (knock none) _ vector hlen hne hspells
    ⟨hostHeard_knock none, fun h => (by cases h)⟩ hblank
  exact hlost

/-- So a history does lose the vector of a device. -/
theorem second_knock_loses_vector :
    ¬ ∀ (check : Check) (key : Vector UInt8 33) (m : Nor flashSize) (cycles : List PowerCycle),
      VectorKept (m.slice 0 vectorLen) (afterCycles check key m cycles) := by
  intro h
  have hlen : ([0x00, 0xEF, 0x30, 0xF0] : Bytes).length = vectorLen := rfl
  have hstored : StoredAt [0x00, 0xEF, 0x30, 0xF0] 0
      (Nor.vectorOnly flashSize [0x00, 0xEF, 0x30, 0xF0]).cells := by
    intro i hi hn
    simp only [Nat.zero_add]
    exact Nor.getElem_vectorOnly (by omega) hi
  have hkept := h (fun _ _ _ => true) releaseKey (Nor.vectorOnly flashSize [0x00, 0xEF, 0x30, 0xF0])
    [knock (some 3), knock none]
  rw [(storedAt_zero_iff hlen).1 hstored] at hkept
  exact not_kept_of_second_knock hlen (by decide) hstored hkept

end PowerCycle

end SignedBoot.Device
