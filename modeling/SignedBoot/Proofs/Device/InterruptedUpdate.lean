import Mathlib.Data.List.Basic
import Mathlib.Tactic.Common
import SignedBoot.Curve.Ecdsa
import SignedBoot.Proofs.Device.UpdateThenBoot
import SignedBoot.Proofs.Device.WriteConfinement

/-!
# Interrupted updates

The signature is the last thing that an update programs, and it takes two commands, since a block
boundary runs through it. Only the second of them reaches the half that holds `s`. So an update that
is cut before its last command leaves `s` erased, which reads as a number above the group order, and
no signature check accepts that: the next run without a host resets.
-/

namespace SignedBoot

open Flash Layout Wire Host

namespace Flash

/-- The first segment of a run reaches up to the next block boundary. -/
theorem segments_of_ne_nil {addr : Nat} {bs : Bytes} (h : bs ≠ []) :
    segments addr bs = (addr, bs.take (blockSize - addr % blockSize)) ::
      segments (addr + (bs.take (blockSize - addr % blockSize)).length)
        (bs.drop (blockSize - addr % blockSize)) := by
  obtain ⟨b, bs, rfl⟩ := List.exists_cons_of_ne_nil h
  rw [segments]

end Flash

namespace Device

variable {n : Nat}

/-! ## An erased `s` -/

/-- A signature check that says no whenever `s` is not below the group order. -/
def RejectsLargeS (check : Check) : Prop :=
  ∀ digest (signature : Vector UInt8 signatureLen) key,
    Curve.order ≤ Bytes.toNat (signature.toList.drop 32) → check digest signature key = false

theorem rejectsLargeS_accepts : RejectsLargeS Curve.accepts := by
  intro digest signature key hlarge
  have hnone : Curve.Signature.ofCompact? signature = none := by
    unfold Curve.Signature.ofCompact?
    exact if_neg fun h => absurd h.2 (Nat.not_lt.2 hlarge)
  unfold Curve.accepts
  rw [hnone]
  rcases Curve.Affine.ofCompressed? key with _ | point
  · rfl
  · rfl

theorem getElem_of_signature_eq_ok {m : Nor n} {signature : Vector UInt8 signatureLen}
    (h : m.signature = .ok signature) {i : Nat} (hi : i < signatureLen) :
    ∃ hn : signatureField + i < n, signature[i] = m.cells[signatureField + i] := by
  unfold Nor.signature at h
  split at h
  · next hfits =>
    have hi64 : i < 64 := hi
    have hfits' : 0x5FBD + 64 ≤ n := hfits
    refine ⟨show 0x5FBD + i < n by omega, ?_⟩
    rw [← Except.ok.inj h, Vector.getElem_cast, Vector.getElem_extract]
  · cases h

theorem order_le_of_erased {m : Nor n} {signature : Vector UInt8 signatureLen}
    (h : m.signature = .ok signature)
    (hblank : ∀ i (hi : i < n), signatureField + 32 ≤ i → i < sizeField → m.cells[i] = erased) :
    Curve.order ≤ Bytes.toNat (signature.toList.drop 32) := by
  have hlen : (signature.toList.drop 32).length = 32 := by
    rw [List.length_drop, Vector.length_toList]
    rfl
  have hall : signature.toList.drop 32 = List.replicate 32 erased := by
    refine List.ext_getElem (by rw [hlen, List.length_replicate]) fun i h1 h2 => ?_
    rw [hlen] at h1
    obtain ⟨hn, hcell⟩ := getElem_of_signature_eq_ok h (show 32 + i < 64 by omega)
    rw [List.getElem_drop, Vector.getElem_toList, List.getElem_replicate, hcell]
    apply hblank
    · show 0x5FBD + 32 ≤ 0x5FBD + (32 + i)
      omega
    · show 0x5FBD + (32 + i) < 0x5FFD
      omega
  rw [hall]
  decide

/-- A run without a host resets while `s` is erased, whatever else is in the memory. -/
theorem powerOn_resets_of_erased {σ ε : Type} [Channel σ ε] {check : Check}
    (hcheck : RejectsLargeS check) (key : Vector UInt8 33) {m : Nor n}
    (hblank : ∀ i (hi : i < n), signatureField + 32 ≤ i → i < sizeField → m.cells[i] = erased)
    {quiet : σ} (hquiet : ¬ HostHeard quiet) :
    ∃ cause, (powerOn check key ⟨m, quiet⟩).ending = .reset cause := by
  rcases powerOn_cases check key ⟨m, quiet⟩ with ⟨hheard, -⟩ | ⟨-, link, hrun⟩
  · exact absurd hheard hquiet
  rw [hrun, resets_iff]
  intro addr question hjump
  obtain ⟨-, size, signature, -, -, -, hsignature, rfl, hvalid⟩ :=
    (verifyAndBoot_jumps_iff check key _ addr question).1 hjump
  have hlarge := order_le_of_erased hsignature hblank
  rw [hcheck _ _ _ hlarge] at hvalid
  cases hvalid

/-! ## The runs of an update -/

section
variable (image : Image) (signature : Vector UInt8 signatureLen)

/-- The runs that an update programs, in their order. -/
def updateWrites : List (Nat × Bytes) :=
  (programRequests image signature).flatMap requestWrites

/-- The runs of an update except for the last: the pieces of the image, the size, and the three bytes
of the signature in front of the block boundary. -/
def earlyWrites : List (Nat × Bytes) :=
  (dataRequests image).flatMap requestWrites ++
    [(sizeField, Bytes.ofNat sizeLen image.size), (signatureField, signature.toList.take 3)]

theorem updateWrites_eq : updateWrites image signature =
    earlyWrites image signature ++ [(signatureField + 3, signature.toList.drop 3)] := by
  have hlen : signature.toList.length = 64 := signature.length_toList
  have hsize : segments sizeField (Bytes.ofNat sizeLen image.size) =
      [(sizeField, Bytes.ofNat sizeLen image.size)] := by
    have hlen3 : (Bytes.ofNat sizeLen image.size).length = 3 := Bytes.length_ofNat _ _
    apply segments_of_fits
    · intro hnil
      rw [hnil] at hlen3
      cases hlen3
    · show 61 + (Bytes.ofNat sizeLen image.size).length ≤ 64
      omega
  have hsignature : segments signatureField signature.toList =
      [(signatureField, signature.toList.take 3),
        (signatureField + 3, signature.toList.drop 3)] := by
    have hroom : blockSize - signatureField % blockSize = 3 := rfl
    have htake : (signature.toList.take 3).length = 3 := by
      rw [List.length_take, hlen]
      rfl
    have hdrop : (signature.toList.drop 3).length = 61 := by rw [List.length_drop, hlen]
    have hrest : segments (signatureField + 3) (signature.toList.drop 3) =
        [(signatureField + 3, signature.toList.drop 3)] := by
      apply segments_of_fits
      · intro hnil
        rw [hnil] at hdrop
        cases hdrop
      · show 0 + (signature.toList.drop 3).length ≤ 64
        omega
    have hne : signature.toList ≠ [] := by
      intro hnil
      rw [hnil] at hlen
      cases hlen
    rw [segments_of_ne_nil hne, hroom, htake, hrest]
  unfold updateWrites earlyWrites programRequests
  simp only [List.flatMap_append, List.flatMap_cons, List.flatMap_nil, requestWrites,
    Bytes.toList_field, hsize, hsignature, List.append_nil, List.append_assoc, List.cons_append,
    List.nil_append]

variable {image signature}

/-- Whatever an update programs before its last command, it leaves `s` alone. -/
theorem getElem_earlyWrites {done : List (Nat × Bytes)}
    (hdone : done <+: earlyWrites image signature) (cells : Vector UInt8 n) {i : Nat} (hi : i < n)
    (hge : signatureField + 32 ≤ i) (hlt : i < sizeField) :
    (applyAll (programChanges done) cells)[i] = cells[i] := by
  have hge' : 0x5FBD + 32 ≤ i := hge
  have hlt' : i < 0x5FFD := hlt
  apply getElem_applyAll_programChanges hi
  intro w hw
  rcases List.mem_append.1 (hdone.subset hw) with hw | hw
  · obtain ⟨r, hr, hw⟩ := List.mem_flatMap.1 hw
    have hprogram : r ∈ programRequests image signature := List.mem_append_left _ hr
    obtain ⟨-, -, hdenied, -⟩ := mem_programRequests hprogram
    obtain ⟨piece, -, rfl⟩ := List.mem_map.1 hr
    by_contra hhit
    have howns : i + 1 < 0x5FBD := owns_of_mem_requestWrites hdenied hw (by omega) (by omega)
    omega
  · simp only [List.mem_cons, List.not_mem_nil, or_false] at hw
    rcases hw with rfl | rfl
    · exact Or.inl hlt
    · right
      have htake : (signature.toList.take 3).length ≤ 3 := List.length_take_le _ _
      show 0x5FBD + (signature.toList.take 3).length ≤ i
      omega

end

/-! ## Cut sessions -/

/-- A session with requests that are cut by the power has done a front part of their runs, however
many of the requests came through. If all of them did and none went unacknowledged, the power
allowed exactly that part, and the cut ended the session. -/
theorem replay_cut {rs : List Request}
    (h : ∀ r ∈ rs, r.Fits ∧ r.HasBytes ∧ ¬ Denied r ∧ reaction r = .proceed) (hn : loaderBase ≤ n)
    {m : Nor n} {left : Nat} (hpower : m.power = some left)
    (hleft : left < (rs.flatMap requestWrites).length) (quota : Quota) {frames : List Frame}
    (hframes : frames <+: (rs ++ [Request.stop]).map fun r => Frame.ofContent r.content) :
    ∃ done, done <+: rs.flatMap requestWrites ∧ done.length ≤ left ∧
      (replay quota m frames).flash = m.after (programChanges done) ∧
      (quota = none → frames = (rs ++ [Request.stop]).map (fun r => Frame.ofContent r.content) →
        done.length = left ∧
          (replay quota m frames).ending = some (.refused (.storage .powerLoss))) := by
  induction rs generalizing m left quota frames with
  | nil => exact absurd hleft (Nat.not_lt_zero left)
  | cons r rs ih =>
    obtain ⟨hfits, hbytes, hdenied, hproceed⟩ := h r List.mem_cons_self
    have hbounds : ∀ w ∈ requestWrites r, w.1 + w.2.length ≤ n := fun w hw =>
      Nat.le_trans (le_of_mem_requestWrites hdenied hw) hn
    rw [List.flatMap_cons, List.length_append] at hleft
    rw [List.flatMap_cons]
    rw [List.cons_append, List.map_cons] at hframes ⊢
    rcases List.prefix_cons_iff.1 hframes with rfl | ⟨frames, rfl, hrest⟩
    · refine ⟨[], List.nil_prefix, Nat.zero_le left, m.after_nil.symm, ?_⟩
      intro _ hall
      cases hall
    have hrun := run_execute hdenied hbounds m
    rw [← handleFrame_content hfits hbytes, hpower, hproceed] at hrun
    unfold replay
    by_cases hcovers : (requestWrites r).length ≤ left
    · -- the request is executed whole, and what is left of the power decides the rest
      have htake : Quota.take (some left) (programChanges (n := n) (requestWrites r)) =
          programChanges (requestWrites r) := by
        apply List.take_of_length_le
        rw [programChanges, List.length_map]
        exact hcovers
      rw [if_pos (Quota.covers_some.2 hcovers), htake] at hrun
      rw [hrun]
      simp only
      rcases hquota : quota.spend? with _ | quota'
      · refine ⟨requestWrites r, List.prefix_append _ _, hcovers, rfl, ?_⟩
        rintro rfl
        cases hquota
      · have hpower' : (m.after (programChanges (requestWrites r))).power =
            some (left - (requestWrites r).length) := by
          show m.power.use _ = _
          rw [hpower, programChanges, List.length_map]
          rfl
        obtain ⟨done, hdone, hlen, hflash, hexact⟩ :=
          ih (fun q hq => h q (List.mem_cons_of_mem r hq)) hpower' (by omega) quota' hrest
        refine ⟨requestWrites r ++ done, (List.prefix_append_right_inj _).2 hdone, ?_, ?_, ?_⟩
        · rw [List.length_append]
          omega
        · rw [programChanges_append, Nor.after_append]
          exact hflash
        · rintro rfl hall
          cases hquota
          obtain ⟨hwhole, hending⟩ := hexact rfl (List.cons.inj hall).2
          refine ⟨?_, hending⟩
          rw [List.length_append]
          omega
    · -- the power goes in the middle of this request
      have htake : Quota.take (some left) (programChanges (n := n) (requestWrites r)) =
          programChanges ((requestWrites r).take left) := List.map_take.symm
      rw [if_neg (fun hpaid => hcovers (Quota.covers_some.1 hpaid)), htake] at hrun
      rw [hrun]
      have hlen : ((requestWrites r).take left).length = left :=
        List.length_take_of_le (Nat.le_of_not_le hcovers)
      refine ⟨(requestWrites r).take left, ?_, Nat.le_of_eq hlen, rfl, fun _ _ => ⟨hlen, rfl⟩⟩
      exact (List.take_prefix left _).trans (List.prefix_append _ _)

/-! ## Cut updates -/

theorem run_eraseBelow_of_covers {m : Nor flashSize} {k : Nat} (hpower : m.power = some k)
    (herased : (areaChanges m).length ≤ k) :
    (eraseBelow loaderBase).run m = (.ok (), cleared m) := by
  have htake : Quota.take (some k) (areaChanges m) = areaChanges m :=
    List.take_of_length_le herased
  rw [run_eraseBelow_loaderBase, hpower, if_pos (Quota.covers_some.2 herased), htake]
  rfl

theorem power_cleared {m : Nor flashSize} {k : Nat} (hpower : m.power = some k) :
    (cleared m).power = some (k - (areaChanges m).length) := by
  show m.power.use _ = _
  rw [hpower]
  rfl

section
variable {image : Image} {signature : Vector UInt8 signatureLen}

/-- What a session does for the bytes of an update, or for a front part of them, when the power goes
before the last command. -/
theorem replay_updateStream {m : Nor flashSize} {left : Nat} (hpower : m.power = some left)
    (hleft : left < (updateWrites image signature).length) (quota : Quota) {bs : Bytes}
    (hbs : bs <+: updateStream image signature) :
    ∃ done, done <+: earlyWrites image signature ∧
      (replay quota m ((Assembler.empty frameCapacity).frames bs)).flash =
        m.after (programChanges done) ∧
      (quota = none → bs = updateStream image signature → done.length = left ∧
        (replay quota m ((Assembler.empty frameCapacity).frames bs)).ending =
          some (.refused (.storage .powerLoss))) := by
  have hrequests : ∀ r ∈ programRequests image signature,
      r.Fits ∧ r.HasBytes ∧ ¬ Denied r ∧ reaction r = .proceed := fun r hr => mem_programRequests hr
  have hframes := Assembler.frames_prefix (Assembler.empty frameCapacity) hbs
  rw [frames_updateStream] at hframes
  obtain ⟨done, hdone, hlen, hflash, hexact⟩ :=
    replay_cut hrequests (by decide) hpower hleft quota hframes
  have hearly : done <+: earlyWrites image signature := by
    have hwrites : done <+: updateWrites image signature := hdone
    rw [updateWrites_eq, List.prefix_concat_iff] at hwrites
    rcases hwrites with hwhole | hearly
    · rw [← updateWrites_eq] at hwhole
      rw [hwhole] at hlen
      exact absurd hleft (Nat.not_lt.2 hlen)
    · exact hearly
  refine ⟨done, hearly, hflash, ?_⟩
  rintro hquota rfl
  exact hexact hquota (frames_updateStream image signature)

variable {m : Nor flashSize} {k : Nat} (hpower : m.power = some k)
  (herased : (areaChanges m).length ≤ k)
  (hcut : k < (areaChanges m).length + (updateWrites image signature).length)
include hpower herased hcut

theorem update_flash_of_cut {link : Script}
    (hstream : Script.arriving link.incoming <+: updateStream image signature) :
    ∃ done, done <+: earlyWrites image signature ∧
      (update ⟨m, link⟩).board.flash = (cleared m).after (programChanges done) := by
  have herase := run_eraseBelow_of_covers hpower herased
  rcases update_flash_of_ok herase link with hflash | ⟨session, hincoming, hon, hflash⟩
  · exact ⟨[], List.nil_prefix, hflash.trans (cleared m).after_nil.symm⟩
  · have hserved := serve_eq_replay ⟨cleared m, Assembler.empty frameCapacity⟩ session hon
    rw [hincoming] at hserved
    obtain ⟨done, hdone, hreplay, -⟩ :=
      replay_updateStream (power_cleared hpower) (by omega) session.sendsLeft hstream
    exact ⟨done, hdone, hflash.trans (hserved.flash.trans hreplay)⟩

/-- If all of the update arrives and the host can be answered, the run does as much as the power
allows and ends with the cut. -/
theorem powerOn_of_cut {link heard : Script} (hawait : awaitHandshake.run link = (.ok true, heard))
    (hsends : heard.sendsLeft = none)
    (hstream : Script.arriving heard.incoming = updateStream image signature) (check : Check)
    (key : Vector UInt8 33) :
    (powerOn check key ⟨m, link⟩).ending =
      .reset (.sessionOver (.refused (.storage .powerLoss))) ∧
    (powerOn check key ⟨m, link⟩).board.flash.operations = m.operations + k := by
  have herase := run_eraseBelow_of_covers hpower herased
  obtain ⟨told, htold, hincoming, hquota, -⟩ := exists_told hsends
  rw [← hincoming] at hstream
  have hserved := serve_eq_replay ⟨cleared m, Assembler.empty frameCapacity⟩
    (Channel.setReceive true told) rfl
  have hprefix : Script.arriving told.incoming <+: updateStream image signature :=
    ⟨[], (List.append_nil _).trans hstream⟩
  obtain ⟨done, -, hreplay, hexact⟩ :=
    replay_updateStream (power_cleared hpower) (by omega) told.sendsLeft hprefix
  obtain ⟨hlen, hending⟩ := hexact hquota hstream
  rw [powerOn_eq_receiveUpdate hawait herase htold check key]
  constructor
  · show Ending.reset (.sessionOver (serve _ _).ending) = _
    rw [hserved.ending]
    show Ending.reset (.sessionOver ((replay told.sendsLeft (cleared m)
      ((Assembler.empty frameCapacity).frames (Script.arriving told.incoming))).ending.getD _)) = _
    rw [hending]
    rfl
  · have hoperations : ((cleared m).after (programChanges done)).operations = m.operations + k := by
      show m.operations + (areaChanges m).length + (programChanges done).length = m.operations + k
      rw [programChanges, List.length_map, hlen]
      omega
    rw [← hoperations, ← hreplay]
    exact congrArg Nor.operations hserved.flash

end

/-- An update that is cut by the power after the erase sequence and before its last command, the
second of the signature, is never started: the next run without a host resets, on whatever channel
and under whatever key, as long as the signature check turns down an `s` that is not below the group
order. It does not matter how much of the update arrived, or whether the host could be answered; if
all of it did and it could, the run has carried out exactly the commands that the power allowed. -/
theorem interrupted_update_resets {check : Check} (hcheck : RejectsLargeS check)
    (key : Vector UInt8 33) (image : Image) (signature : Vector UInt8 signatureLen)
    {m : Nor flashSize} {k : Nat} (hpower : m.power = some k)
    (herased : (areaChanges m).length ≤ k)
    (hcut : k < (areaChanges m).length + (updateWrites image signature).length)
    {link heard : Script} (hawait : awaitHandshake.run link = (.ok true, heard))
    (hstream : Script.arriving heard.incoming <+: updateStream image signature)
    {σ ε : Type} [Channel σ ε] {quiet : σ} (hquiet : ¬ HostHeard quiet) :
    (∃ cause, (powerOn check key
      ⟨(powerOn check key ⟨m, link⟩).board.flash.restorePower, quiet⟩).ending = .reset cause) ∧
    (heard.sendsLeft = none → Script.arriving heard.incoming = updateStream image signature →
      (powerOn check key ⟨m, link⟩).ending =
        .reset (.sessionOver (.refused (.storage .powerLoss))) ∧
      (powerOn check key ⟨m, link⟩).board.flash.operations = m.operations + k) := by
  constructor
  · have hrun : powerOn check key ⟨m, link⟩ = update ⟨m, heard⟩ := by
      unfold powerOn
      rw [hawait]
    obtain ⟨done, hdone, hflash⟩ := update_flash_of_cut hpower herased hcut hstream
    apply powerOn_resets_of_erased hcheck key _ hquiet
    intro i hi hge hlt
    have hge' : 0x5FBD + 32 ≤ i := hge
    have hlt' : i < 0x5FFD := hlt
    have hvector : (m.slice 0 vectorLen).length = 4 := m.length_slice (by decide)
    have hblocks : loaderBase / blockSize = 384 := rfl
    have hcell : (powerOn check key ⟨m, link⟩).board.flash.cells[i] = erased := by
      rw [hrun, hflash]
      show (applyAll (programChanges done) (cleared m).cells)[i] = erased
      rw [getElem_earlyWrites hdone _ hi hge hlt, getElem_cleared m hi, dif_neg (by omega),
        if_pos (by omega)]
    exact hcell
  · intro hsends hwhole
    exact powerOn_of_cut hpower herased hcut hawait hsends hwhole check key

theorem length_updateWrites_ofByte (b : UInt8) (signature : Vector UInt8 signatureLen) :
    (updateWrites (Image.ofByte b) signature).length = 4 := by
  have hchunks : (Image.ofByte b).chunks = [(0, [b])] := by
    show Image.place 0 (Bytes.chunks maxChunkLen [b]) = _
    rw [Bytes.chunks_of_ne_nil (by decide) (List.cons_ne_nil b [])]
    show Image.place 0 ([b] :: Bytes.chunks maxChunkLen []) = _
    rw [Bytes.chunks]
    rfl
  have hwrites : chunkWrites 0 [b] = [(entry, [b])] := by
    show segments entry [b] ++ segments (2 * vectorLen) [] = _
    rw [segments_nil, segments_of_fits (List.cons_ne_nil b []) (show 4 + 1 ≤ 64 by decide)]
    rfl
  have hdata : (dataRequests (Image.ofByte b)).flatMap requestWrites = [(entry, [b])] := by
    unfold dataRequests
    rw [hchunks]
    show chunkWrites 0 [b] ++ [] = _
    rw [hwrites]
    rfl
  rw [updateWrites_eq, earlyWrites, hdata]
  rfl

/-- An update of a blank device to an image of one byte, cut between the two commands that program
the signature. -/
theorem torn_signature_resets :
    ∃ cause, (powerOn Curve.accepts releaseKey
      ⟨(powerOn Curve.accepts releaseKey ⟨(Nor.blank flashSize).cutAfter 390, Script.plain
        (handshakeRequest ++ updateStream (Image.ofByte 0x12) (Vector.replicate signatureLen 7))⟩
        ).board.flash.restorePower, Script.plain []⟩).ending = .reset cause := by
  have hwrites := length_updateWrites_ofByte 0x12 (Vector.replicate signatureLen 7)
  have hblocks := length_areaChanges ((Nor.blank flashSize).cutAfter 390)
  obtain ⟨heard, hawait, -, harriving, -⟩ := awaitHandshake_finds (knock_plain
    (updateStream (Image.ofByte 0x12) (Vector.replicate signatureLen 7)))
  have hall : Script.arriving (Script.plain (handshakeRequest ++
      updateStream (Image.ofByte 0x12) (Vector.replicate signatureLen 7))).incoming =
      handshakeRequest ++ updateStream (Image.ofByte 0x12) (Vector.replicate signatureLen 7) :=
    Script.arriving_map_byte _
  rw [hall] at harriving
  have hstream : Script.arriving heard.incoming <+:
      updateStream (Image.ofByte 0x12) (Vector.replicate signatureLen 7) :=
    ⟨[], (List.append_nil _).trans (List.append_cancel_left harriving).symm⟩
  have hquiet : ¬ HostHeard (Script.plain []) := not_hostHeard_of_silent rfl
  have hsafe := interrupted_update_resets rejectsLargeS_accepts releaseKey (Image.ofByte 0x12)
    (Vector.replicate signatureLen 7) (m := (Nor.blank flashSize).cutAfter 390) (k := 390) rfl
    (by omega) (by omega) hawait hstream hquiet
  exact hsafe.1

end Device

end SignedBoot
