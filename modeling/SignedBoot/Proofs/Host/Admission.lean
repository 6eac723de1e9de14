import SignedBoot.Proofs.Device.UpdateThenBoot

/-!
# Which byte strings are images

The host takes a byte string for an image if it is not empty, ends below the signature record and has
an erased second word. Each of these is something that the device does with it: the last piece of a
longer run is denied, a stored size of zero is that of no image, and a second word is not stored, so
what is hashed in its place is erased. Hence the host takes just those byte strings that an erased
device takes piece by piece and then hashes as they are.
-/

namespace SignedBoot

open Flash Layout Wire

/-! ## Requests that a session accepts -/

namespace Device

variable {n k : Nat}

/-- A session that is sent the frame of a request and goes on after it. -/
def Session.accept? (s : Session n k) (r : Request) : Option (Session n k) := do
  let bytes ← r.encode?
  match s.assembler.frames bytes with
  | [frame] =>
    match (handleFrame frame).run s.flash with
    | (.ok .proceed, m) => some ⟨m, s.assembler.after bytes⟩
    | _ => none
  | _ => none

/-- A session that is sent one request after the other and goes on after each. -/
def Session.acceptAll? (s : Session n k) (rs : List Request) : Option (Session n k) :=
  rs.foldlM Session.accept? s

/-- A session after requests that program. -/
def Session.following (s : Session n k) (rs : List Request) : Session n k :=
  ⟨s.flash.after (programChanges (rs.flatMap requestWrites)),
    s.assembler.after (rs.flatMap Request.frame)⟩

theorem Session.following_cons (s : Session n k) (r : Request) (rs : List Request) :
    (s.following [r]).following rs = s.following (r :: rs) := by
  have hframes : [r].flatMap Request.frame = r.frame := List.flatMap_singleton _ _
  have hwrites : [r].flatMap requestWrites = requestWrites r := List.flatMap_singleton _ _
  simp only [following, hframes, hwrites, List.flatMap_cons, programChanges_append,
    Nor.after_append, Assembler.after_append]

/-- What a session has to bring along to accept requests: power, and no escape pending. -/
structure Session.Ready (s : Session n frameCapacity) : Prop where
  power : s.flash.power = none
  plain : s.assembler.escaped = false

theorem Session.Ready.following {s : Session n frameCapacity} (h : s.Ready) {r : Request}
    (hfits : r.Fits) : (s.following [r]).Ready := by
  refine ⟨?_, ?_⟩
  · show s.flash.power.use _ = none
    rw [h.power]
    rfl
  · obtain ⟨-, -, hidle⟩ := Assembler.feed_wrap h.plain (Request.length_content_lt hfits)
    show (s.assembler.after ([r].flatMap Request.frame)).escaped = false
    rw [List.flatMap_singleton]
    exact hidle.2

/-- A request that programs something is accepted exactly if it fits into a frame and is not denied. -/
theorem Session.accept?_eq_some_iff {s s' : Session n frameCapacity} (h : s.Ready)
    (hn : loaderBase ≤ n) {r : Request} (hbytes : r.HasBytes) (hproceed : reaction r = .proceed) :
    s.accept? r = some s' ↔ (r.Fits ∧ ¬ Denied r) ∧ s' = s.following [r] := by
  by_cases hfits : r.Fits
  · obtain ⟨-, hframe, -⟩ := Assembler.feed_wrap h.plain (Request.length_content_lt hfits)
    have haccept : s.accept? r = match (execute r).run s.flash with
        | (.ok .proceed, m) => some ⟨m, s.assembler.after r.frame⟩
        | _ => none := by
      unfold accept?
      rw [Request.encode?_eq_of_fits hfits]
      simp only [Option.bind_eq_bind, Option.bind_some]
      rw [Request.frame_eq_wrap, hframe]
      simp only [handleFrame_content hfits hbytes]
    rw [haccept]
    by_cases hdenied : Denied r
    · obtain ⟨why, hrun⟩ := run_execute_denied hdenied s.flash
      rw [hrun]
      exact iff_of_false (by simp) fun h => h.1.2 hdenied
    · have hrun : (execute r).run s.flash =
          (.ok .proceed, s.flash.after (programChanges (requestWrites r))) := by
        have hbounds : ∀ w ∈ requestWrites r, w.1 + w.2.length ≤ n := fun w hw =>
          Nat.le_trans (le_of_mem_requestWrites hdenied hw) hn
        rw [run_execute hdenied hbounds, h.power, hproceed]
        rfl
      have hafter : s.following [r] =
          ⟨s.flash.after (programChanges (requestWrites r)), s.assembler.after r.frame⟩ := by
        unfold Session.following
        rw [List.flatMap_singleton, List.flatMap_singleton]
      rw [hrun, hafter]
      constructor
      · intro heq
        exact ⟨⟨hfits, hdenied⟩, (Option.some.inj heq).symm⟩
      · rintro ⟨-, rfl⟩
        rfl
  · have hnone : r.encode? = none := if_neg hfits
    unfold accept?
    rw [hnone]
    exact iff_of_false (by simp) fun h => hfits h.1.1

/-- Requests that program something are all accepted exactly if each of them fits into a frame and none
is denied. -/
theorem Session.acceptAll?_eq_some_iff {s s' : Session n frameCapacity} (h : s.Ready)
    (hn : loaderBase ≤ n) {rs : List Request}
    (hrs : ∀ r ∈ rs, r.HasBytes ∧ reaction r = .proceed) :
    s.acceptAll? rs = some s' ↔ (∀ r ∈ rs, r.Fits ∧ ¬ Denied r) ∧ s' = s.following rs := by
  induction rs generalizing s with
  | nil =>
    have hnone : s.following [] = s := by
      have hflash : s.flash.after (programChanges []) = s.flash := s.flash.after_nil
      unfold following
      simp only [List.flatMap_nil, hflash]
      rfl
    have hdone : s.acceptAll? [] = some s := rfl
    rw [hnone, hdone, Option.some.injEq]
    exact ⟨fun heq => ⟨fun r hr => absurd hr List.not_mem_nil, heq.symm⟩, fun h => h.2.symm⟩
  | cons r rs ih =>
    obtain ⟨hbytes, hproceed⟩ := hrs r List.mem_cons_self
    have hrest : ∀ q ∈ rs, q.HasBytes ∧ reaction q = .proceed := fun q hq =>
      hrs q (List.mem_cons_of_mem _ hq)
    have hcons : s.acceptAll? (r :: rs) = s.accept? r >>= fun s => s.acceptAll? rs :=
      List.foldlM_cons
    rw [hcons, Option.bind_eq_bind, Option.bind_eq_some_iff, List.forall_mem_cons]
    constructor
    · rintro ⟨s1, hfirst, hnext⟩
      obtain ⟨htaken, rfl⟩ := (accept?_eq_some_iff h hn hbytes hproceed).1 hfirst
      obtain ⟨hall, rfl⟩ := (ih (h.following htaken.1) hrest).1 hnext
      exact ⟨⟨htaken, hall⟩, s.following_cons r rs⟩
    · rintro ⟨⟨htaken, hall⟩, rfl⟩
      refine ⟨s.following [r], (accept?_eq_some_iff h hn hbytes hproceed).2 ⟨htaken, rfl⟩, ?_⟩
      exact (ih (h.following htaken.1) hrest).2 ⟨hall, (s.following_cons r rs).symm⟩

/-! ## What is hashed -/

theorem flatten_hashedPieces {m : Nor n} {size : Nat} (hsize : m.imageSize = .ok size)
    (hpossible : PossibleSize size) : (hashedPieces m).flatten = signedBytes m size := by
  have hn : loaderBase ≤ n := loaderBase_le_of_imageSize hsize
  have hpieces : hashedPieces m = (pieces m size).1 := hashed_verifying _ _ _ hsize hpossible
  rw [hpieces]
  exact flatten_pieces m (Nat.le_trans (by decide) hn) (le_of_possibleSize hn hpossible)

/-- A verification that asks the signature check asks about the digest of just what it has hashed. -/
theorem digest_of_run {hash : Bytes → Digest} {check : Check} {key : Vector UInt8 33} {m : Nor n}
    {question : Question} {valid : Bool} {hashed : List Bytes}
    (h : (verifying hash check key m).run [] = (.ok (.judged question valid), hashed)) :
    question.digest = hash hashed.flatten := by
  rw [run_verifying, Prod.mk.injEq] at h
  obtain ⟨hjudged, rfl⟩ := h
  obtain ⟨size, signature, hsize, hpossible, -, rfl, -⟩ :=
    (verify_eq_judged_iff _ _ _ _ _ _).1 hjudged
  rw [flatten_hashedPieces hsize hpossible]

/-- A memory in which everything below the loader but the reset vector is erased, and whose power
lasts. -/
structure FreshlyErased (m : Nor flashSize) : Prop where
  power : m.power = none
  erased : ∀ i (hi : i < flashSize), vectorLen ≤ i → i < loaderBase → m.cells[i] = Layout.erased

theorem freshlyErased_blank : FreshlyErased (Nor.blank flashSize) :=
  ⟨rfl, fun _ hi _ _ => Vector.getElem_replicate hi⟩

/-- The erase sequence before an update leaves such a memory. -/
theorem freshlyErased_cleared {m : Nor flashSize} (h : m.power = none) : FreshlyErased (cleared m) := by
  refine ⟨cleared_power h, fun i hi (hge : 4 ≤ i) (hlt : i < 0x6000) => ?_⟩
  have hlen : (m.slice 0 vectorLen).length = 4 := m.length_slice (by decide)
  have hblocks : loaderBase / blockSize = 384 := rfl
  rw [getElem_cleared m hi, dif_neg (by omega), if_pos (by omega)]

end Device

namespace Host

open Device

theorem Image.exists_ofBytes_iff (bytes : Bytes) :
    (∃ image, Image.ofBytes bytes = .ok image) ↔
      bytes ≠ [] ∧ bytes.length < signatureField ∧ ∀ b ∈ secondWord bytes, b = erased := by
  unfold Image.ofBytes
  split
  · next hnil => exact iff_of_false (by simp) fun h => h.1 hnil
  · next hne =>
    split
    · next hlt =>
      split
      · next hsecond => exact iff_of_true ⟨_, rfl⟩ ⟨hne, hlt, hsecond⟩
      · next hsecond => exact iff_of_false (by simp) fun h => hsecond h.2.2
    · next hlt => exact iff_of_false (by simp) fun h => hlt h.2.1

/-- The requests that program a run and its size. -/
def loadRequests (bytes : Bytes) : List Request :=
  pieceRequests bytes ++ [.size (Bytes.field sizeLen bytes.length)]

/-- The memory after them. -/
def loaded (m : Nor flashSize) (bytes : Bytes) : Nor flashSize :=
  m.after (programChanges ((loadRequests bytes).flatMap requestWrites))

theorem cells_loaded (m : Nor flashSize) (bytes : Bytes) :
    (loaded m bytes).cells = applyAll (programChanges (loadRuns bytes)) m.cells := by
  show applyAll (programChanges ((loadRequests bytes).flatMap requestWrites)) m.cells = _
  rw [loadRequests, List.flatMap_append, programChanges_append, applyAll_append,
    applyAll_pieceRequests]
  simp only [List.flatMap_cons, List.flatMap_nil, requestWrites, List.append_nil,
    applyAll_segments, Bytes.toList_field]
  rfl

/-- All requests that load a run are accepted exactly if the run ends below the signature record. -/
theorem loadRequests_taken_iff (bytes : Bytes) :
    (∀ r ∈ loadRequests bytes, r.Fits ∧ ¬ Denied r) ↔ bytes.length < signatureField := by
  rw [← pieceRequests_taken_iff, loadRequests, List.forall_mem_append, List.forall_mem_singleton]
  exact and_iff_left ⟨trivial, id⟩

theorem mem_loadRequests {bytes : Bytes} {r : Request} (hr : r ∈ loadRequests bytes) :
    r.HasBytes ∧ reaction r = .proceed := by
  rcases List.mem_append.1 hr with hr | hr
  · exact mem_pieceRequests hr
  · obtain rfl := List.mem_singleton.1 hr
    exact ⟨trivial, rfl⟩

section
variable {m : Nor flashSize} (hm : FreshlyErased m) {bytes : Bytes}
  (hlt : bytes.length < signatureField)
include hm hlt

/-- In an erased memory each of the runs is stored. -/
theorem storedAt_loaded {w : Nat × Bytes} (hw : w ∈ loadRuns bytes) :
    StoredAt w.2 w.1 (loaded m bytes).cells := by
  obtain ⟨hfirst, hrest, hsize⟩ := loadRuns_bounds hlt
  have hinside : 4 ≤ w.1 ∧ w.1 + w.2.length ≤ 0x6000 := by
    simp only [loadRuns, List.mem_cons, List.not_mem_nil, or_false] at hw
    rcases hw with rfl | rfl | rfl
    · exact ⟨Nat.le_refl 4, Nat.le_trans hfirst (by decide)⟩
    · exact ⟨show 4 ≤ 2 * 4 by decide, Nat.le_trans hrest (by decide)⟩
    · exact ⟨show 4 ≤ 0x5FFD by decide, Nat.le_of_eq (congrArg (0x5FFD + ·) hsize)⟩
  rw [cells_loaded]
  refine storedAt_applyAll_programChanges (loadRuns_apart hlt) hw fun i hi hge hend => ?_
  exact hm.erased i hi (Nat.le_trans hinside.1 hge) (Nat.lt_of_lt_of_le hend hinside.2)

theorem imageSize_loaded : (loaded m bytes).imageSize = .ok bytes.length := by
  have hlt' : bytes.length < 0x5FBD := hlt
  exact imageSize_of_stored (storedAt_loaded hm hlt (.tail _ (.tail _ (.head _)))) (by decide)
    (show bytes.length ≤ 0xFFFFFF by omega)

/-- The device asks its signature check about a run exactly if there is one. -/
theorem judged_loaded_iff (hash : Bytes → Digest) (check : Check) (key : Vector UInt8 33) :
    (∃ question valid, verify hash check key (loaded m bytes) = .ok (.judged question valid)) ↔
      bytes ≠ [] := by
  have hsize := imageSize_loaded hm hlt
  constructor
  · rintro ⟨question, valid, hjudged⟩
    obtain ⟨size, -, hsize', hpossible, -⟩ := (verify_eq_judged_iff _ _ _ _ _ _).1 hjudged
    obtain rfl : bytes.length = size := Except.ok.inj (hsize.symm.trans hsize')
    exact List.length_pos_iff.1 hpossible.1
  · intro hne
    have hpossible : PossibleSize bytes.length := ⟨List.length_pos_iff.2 hne, Nat.le_of_lt hlt⟩
    obtain ⟨signature, hsignature⟩ : ∃ signature, (loaded m bytes).signature = .ok signature :=
      ⟨_, dif_pos (by decide)⟩
    exact ⟨_, _, (verify_eq_judged_iff _ _ _ _ _ _).2
      ⟨_, signature, hsize, hpossible, hsignature, rfl, rfl⟩⟩

/-- The device hashes a run as it is exactly if its second word is erased. -/
theorem hashedPieces_loaded_iff (hne : bytes ≠ []) :
    (hashedPieces (loaded m bytes)).flatten = bytes ↔ ∀ b ∈ secondWord bytes, b = erased := by
  have hpossible : PossibleSize bytes.length := ⟨List.length_pos_iff.2 hne, Nat.le_of_lt hlt⟩
  have hfirst := storedAt_loaded hm hlt (.head _)
  have hrest := storedAt_loaded hm hlt (.tail _ (.head _))
  have hfits : bytes.length ≤ flashSize := Nat.le_trans (Nat.le_of_lt hlt) (by decide)
  rw [flatten_hashedPieces (imageSize_loaded hm hlt) hpossible,
    signedBytes_eq_iff hfirst hrest hfits (by decide)]

end

/-- A byte string is an image for the host exactly if an erased device accepts the frames of all its
pieces and of its size, gets as far as asking the signature check about the digest of that byte string,
and has then hashed just that byte string. -/
theorem image_iff_device_hashes_it (hash : Bytes → Digest) (check : Check) (key : Vector UInt8 33)
    {m : Nor flashSize} (hm : FreshlyErased m) (bytes : Bytes) :
    (∃ image, Image.ofBytes bytes = .ok image) ↔
      ∃ size s question valid, Request.ofSize? bytes.length = some size ∧
        Session.acceptAll? ⟨m, Assembler.empty frameCapacity⟩ (pieceRequests bytes ++ [size]) =
          some s ∧
        verify hash check key s.flash = .ok (.judged question valid) ∧
        question.digest = hash bytes ∧ (hashedPieces s.flash).flatten = bytes := by
  have hready : (⟨m, Assembler.empty frameCapacity⟩ : Session flashSize frameCapacity).Ready :=
    ⟨hm.power, rfl⟩
  have haccepted (s : Session flashSize frameCapacity) :
      Session.acceptAll? ⟨m, Assembler.empty frameCapacity⟩ (loadRequests bytes) = some s ↔
        (∀ r ∈ loadRequests bytes, r.Fits ∧ ¬ Denied r) ∧
          s = Session.following ⟨m, Assembler.empty frameCapacity⟩ (loadRequests bytes) :=
    Session.acceptAll?_eq_some_iff hready (by decide) fun _ => mem_loadRequests
  rw [Image.exists_ofBytes_iff]
  constructor
  · rintro ⟨hne, hlt, hsecond⟩
    obtain ⟨question, valid, hjudged⟩ := (judged_loaded_iff hm hlt hash check key).2 hne
    have hsize : Request.ofSize? bytes.length = some (.size (Bytes.field sizeLen bytes.length)) :=
      if_pos (Nat.le_trans (Nat.le_of_lt hlt) (by decide))
    have hhashed := (hashedPieces_loaded_iff hm hlt hne).2 hsecond
    have hrun : (verifying hash check key (loaded m bytes)).run [] =
        (.ok (.judged question valid), hashedPieces (loaded m bytes)) := by
      rw [run_verifying, hjudged]
    have hdigest := digest_of_run hrun
    rw [hhashed] at hdigest
    exact ⟨_, _, question, valid, hsize,
      (haccepted _).2 ⟨(loadRequests_taken_iff bytes).2 hlt, rfl⟩, hjudged, hdigest, hhashed⟩
  · rintro ⟨size, s, question, valid, hsize, hall, hjudged, -, hhashed⟩
    obtain rfl := Option.some.inj (Option.ite_none_right_eq_some.1 hsize).2
    obtain ⟨htaken, rfl⟩ := (haccepted s).1 hall
    have hlt := (loadRequests_taken_iff bytes).1 htaken
    have hne := (judged_loaded_iff hm hlt hash check key).1 ⟨question, valid, hjudged⟩
    exact ⟨hne, hlt, (hashedPieces_loaded_iff hm hlt hne).1 hhashed⟩

/-- A run that ends inside an erased second word is hashed as it is. -/
theorem short_image_is_hashed :
    FreshlyErased (Nor.blank flashSize) ∧
      ∃ size s question valid, Request.ofSize? 5 = some size ∧
        Session.acceptAll? ⟨Nor.blank flashSize, Assembler.empty frameCapacity⟩
          (pieceRequests [0x00, 0x01, 0x02, 0x03, 0xFF] ++ [size]) = some s ∧
        verify sha256 (fun _ _ _ => false) releaseKey s.flash = .ok (.judged question valid) ∧
        question.digest = sha256 [0x00, 0x01, 0x02, 0x03, 0xFF] ∧
        (hashedPieces s.flash).flatten = [0x00, 0x01, 0x02, 0x03, 0xFF] := by
  have himage := (Image.exists_ofBytes_iff [0x00, 0x01, 0x02, 0x03, 0xFF]).2 (by decide)
  exact ⟨freshlyErased_blank,
    (image_iff_device_hashes_it sha256 _ releaseKey freshlyErased_blank _).1 himage⟩

end Host

end SignedBoot
