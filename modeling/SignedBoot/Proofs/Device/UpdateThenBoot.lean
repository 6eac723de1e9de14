import Mathlib.Data.List.Basic
import Mathlib.Tactic.Common
import SignedBoot.Proofs.Device.Handshake
import SignedBoot.Proofs.Device.InstalledImage
import SignedBoot.Proofs.Device.UpdateSession

/-!
# An update, and the boot after it

A host that knocks in time and sends the requests of an update installs its image: the device erases
the application area, executes every request and acknowledges it, and resets when told to stop. The
next run without a host asks the signature check about exactly the image that the host has.
-/

namespace SignedBoot.Device

open Flash Layout Wire Host

/-! ## The stream of an update -/

section
variable (image : Image) (signature : Vector UInt8 signatureLen)

/-- The bytes that the host sends once it has been answered. -/
def updateStream : Bytes :=
  (updateRequests image signature).flatMap Request.frame

/-- Every frame of an update is handed out with its request in it. -/
theorem frames_updateStream :
    (Assembler.empty frameCapacity).frames (updateStream image signature) =
      (updateRequests image signature).map fun r => Frame.ofContent r.content := by
  have hstream : updateStream image signature =
      ((updateRequests image signature).map Request.content).flatMap wrap := by
    unfold updateStream
    rw [List.flatMap_map]
    rfl
  have hroom : ∀ content ∈ (updateRequests image signature).map Request.content,
      content.length + 1 < frameCapacity := by
    intro content hcontent
    obtain ⟨r, hr, rfl⟩ := List.mem_map.1 hcontent
    exact Request.length_content_lt (mem_updateRequests hr).1
  rw [hstream, Assembler.feed_wraps rfl hroom, List.map_map]
  rfl

end

/-! ## The memory -/

/-- A memory after the whole erase sequence. -/
def cleared (m : Nor flashSize) : Nor flashSize :=
  m.after (areaChanges m)

/-- A memory after the erase sequence and all requests of an update. -/
def updated (m : Nor flashSize) (image : Image) (signature : Vector UInt8 signatureLen) :
    Nor flashSize :=
  (cleared m).after (programChanges ((programRequests image signature).flatMap requestWrites))

theorem run_eraseBelow_cleared {m : Nor flashSize} (h : m.power = none) :
    (eraseBelow loaderBase).run m = (.ok (), cleared m) := by
  rw [run_eraseBelow_loaderBase, h, if_pos (Quota.covers_none _)]
  rfl

theorem cleared_power {m : Nor flashSize} (h : m.power = none) : (cleared m).power = none := by
  show m.power.use _ = none
  rw [h]
  rfl

/-- The vector is still there, the rest of the application area is erased. -/
theorem getElem_cleared (m : Nor flashSize) {i : Nat} (hi : i < flashSize) :
    (cleared m).cells[i] =
      if h : i < (m.slice 0 vectorLen).length then (m.slice 0 vectorLen)[i]
      else if i / 64 < loaderBase / blockSize then erased else m.cells[i] := by
  have hlen : (m.slice 0 vectorLen).length = vectorLen := m.length_slice (by decide)
  have hblocks : 2 ≤ loaderBase / blockSize := by decide
  have hcell := getElem_applyAll_eraseChanges hlen hblocks m.cells hi
  simp only [cleared, areaChanges, Nor.after]
  exact hcell

theorem installed_updated (m : Nor flashSize) (image : Image)
    (signature : Vector UInt8 signatureLen) :
    Installed (m.slice 0 vectorLen) image signature m.cells
      (updated m image signature).cells := by
  have hlen : (m.slice 0 vectorLen).length = vectorLen := m.length_slice (by decide)
  have hlen4 : (m.slice 0 vectorLen).length = 4 := hlen
  have hblocks : loaderBase / blockSize = 384 := rfl
  refine installed_applyAll hlen image signature ?_ ?_ ?_
  · intro i hi hn
    have hi' : 0 + i < (m.slice 0 vectorLen).length := by omega
    rw [getElem_cleared m hn, dif_pos hi']
    simp only [Nat.zero_add]
  · intro i hi (hge : 4 ≤ i) (hlt : i < 0x6000)
    rw [getElem_cleared m hi, dif_neg (by omega), if_pos (by omega)]
  · intro i hi (hge : 0x6000 ≤ i)
    rw [getElem_cleared m hi, dif_neg (by omega), if_neg (by omega)]

/-! ## The two runs -/

/-- A verification that got an answer decides the run. -/
theorem verifyAndBoot_ending {n : Nat} {σ ε : Type} [Channel σ ε] {check : Check}
    {key : Vector UInt8 33} {b : Board n σ} {question : Question} {valid : Bool}
    (h : verify sha256 check key b.flash = .ok (.judged question valid)) :
    (verifyAndBoot check key b : Run n σ ε).ending =
      if valid then .jump entry question else .reset (.imageRejected (.judged question false)) := by
  unfold verifyAndBoot
  rw [h]
  cases valid <;> rfl

theorem not_hostHeard_of_silent {link : Script} (h : Script.arriving link.incoming = []) :
    ¬ HostHeard link := by
  intro hheard
  rcases hawait : awaitHandshake.run link with ⟨heard, link'⟩
  unfold HostHeard at hheard
  rw [hawait] at hheard
  obtain rfl : heard = .ok true := hheard
  obtain ⟨noise, harriving, -⟩ := of_awaitHandshake_eq_true hawait
  rw [h] at harriving
  exact absurd harriving.symm (by simp [handshakeRequest])

/-- What a run is when a host knocks in time and sends the whole update, and nothing fails. -/
structure Updates (check : Check) (key : Vector UInt8 33) (b : Board flashSize Script)
    (image : Image) (signature : Vector UInt8 signatureLen) : Prop where
  /-- The device resets because it was told to. -/
  ending : (powerOn check key b).ending = .reset (.sessionOver .stopped)
  /-- It confirms that it is ready, and then each request that programs. -/
  sent : (powerOn check key b).board.link.sent = b.link.sent ++ handshakeResponse.toArray ++
    Array.replicate (programRequests image signature).length Status.ack.toByte
  /-- The memory is updated. -/
  flash : (powerOn check key b).board.flash = updated b.flash image signature

/-- A session in which the whole update arrives executes it and acknowledges every request. -/
theorem serve_update {m : Nor flashSize} (hpower : m.power = none) {image : Image}
    {signature : Vector UInt8 signatureLen} {link : Script} (hon : link.receiving = true)
    (hsends : link.sendsLeft = none)
    (hstream : Script.arriving link.incoming = updateStream image signature) :
    (serve ⟨m, Assembler.empty frameCapacity⟩ link).Agrees link
      ⟨m.after (programChanges ((programRequests image signature).flatMap requestWrites)),
        (programRequests image signature).length, some .stopped⟩ := by
  have hserved := serve_eq_replay ⟨m, Assembler.empty frameCapacity⟩ link hon
  rw [hstream, frames_updateStream, hsends] at hserved
  have hrequests : ∀ r ∈ programRequests image signature,
      r.Fits ∧ r.HasBytes ∧ ¬ Denied r ∧ reaction r = .proceed := fun r hr => mem_programRequests hr
  rw [updateRequests, replay_requests hpower hrequests (by decide)] at hserved
  exact hserved

/-- What a run comes to once a host was heard, the area is erased and the host has been told. -/
theorem powerOn_eq_receiveUpdate {m m' : Nor flashSize} {link heard told : Script}
    (hawait : awaitHandshake.run link = (.ok true, heard))
    (herase : (eraseBelow loaderBase).run m = (.ok (), m'))
    (htold : (Channel.sendAll handshakeResponse : Attempt Script Script.Failure Unit).run
      (Channel.setReceive false heard) = (.ok (), told)) (check : Check) (key : Vector UInt8 33) :
    powerOn check key ⟨m, link⟩ = receiveUpdate ⟨m', Channel.setReceive true told⟩ := by
  have hupdate : powerOn check key ⟨m, link⟩ = update ⟨m, heard⟩ := by
    unfold powerOn
    rw [hawait]
  rw [hupdate]
  unfold update
  rw [herase]
  simp only
  rw [htold]

theorem exists_told {heard : Script} (h : heard.sendsLeft = none) :
    ∃ told : Script, (Channel.sendAll handshakeResponse : Attempt Script Script.Failure Unit).run
        (Channel.setReceive false heard) = (.ok (), told) ∧ told.incoming = heard.incoming ∧
      told.sendsLeft = none ∧ told.sent = heard.sent ++ handshakeResponse.toArray := by
  have hquiet : (heard.setReceive false).sendsLeft = none := h
  exact ⟨_, Script.run_sendAll_of_none handshakeResponse hquiet, rfl, h, rfl⟩

/-- A session that was told to stop is the whole of what is received. -/
theorem receiveUpdate_of_stopped {b : Board flashSize Script}
    (h : (serve ⟨b.flash, Assembler.empty frameCapacity⟩ b.link).ending = .stopped) :
    receiveUpdate b = ⟨.reset (.sessionOver .stopped),
      ⟨(serve ⟨b.flash, Assembler.empty frameCapacity⟩ b.link).session.flash,
        (serve ⟨b.flash, Assembler.empty frameCapacity⟩ b.link).link⟩⟩ := by
  unfold receiveUpdate
  simp only [h]

/-- A host that knocks in time and sends the whole update, on a channel that does not fail, updates
the device. -/
theorem updates_of_stream {m : Nor flashSize} (hpower : m.power = none) (image : Image)
    (signature : Vector UInt8 signatureLen) {link : Script} (hsends : link.sendsLeft = none)
    (hknock : handshakeRequest <+: Script.arriving (link.incoming.take pollLimit))
    (hstream : Script.arriving link.incoming = handshakeRequest ++ updateStream image signature)
    (check : Check) (key : Vector UInt8 33) : Updates check key ⟨m, link⟩ image signature := by
  obtain ⟨heard, hawait, hkept, harriving, -⟩ := awaitHandshake_finds hknock
  have hrest : Script.arriving heard.incoming = updateStream image signature := by
    rw [hstream] at harriving
    exact (List.append_cancel_left harriving).symm
  have herase := run_eraseBelow_cleared hpower
  obtain ⟨told, htold, hincoming, hquota, hsent⟩ := exists_told (hkept.sendsLeft.trans hsends)
  have hrun := powerOn_eq_receiveUpdate hawait herase htold check key
  rw [← hincoming] at hrest
  have hserved := @serve_update (cleared m) (cleared_power hpower) image signature
    (Channel.setReceive true told) rfl hquota hrest
  have hstopped := @receiveUpdate_of_stopped ⟨cleared m, Channel.setReceive true told⟩
    hserved.ending
  have hanswered : (Channel.setReceive true told).sent =
      link.sent ++ handshakeResponse.toArray := by
    rw [← hkept.sent]
    exact hsent
  refine ⟨?_, ?_, ?_⟩
  · rw [hrun, hstopped]
  · rw [hrun, hstopped, ← hanswered]
    exact hserved.sent
  · rw [hrun, hstopped]
    exact hserved.flash

/-- A run without a host on a memory that holds an image puts the image to the signature check, and
the answer decides. -/
theorem boots_installed {vector : Bytes} {image : Image} {signature : Vector UInt8 signatureLen}
    {old : Vector UInt8 flashSize} {m : Nor flashSize}
    (h : Installed vector image signature old m.cells) {quiet : Script}
    (hsilent : Script.arriving quiet.incoming = []) (check : Check) (key : Vector UInt8 33) :
    (powerOn check key ⟨m, quiet⟩).ending =
      if check (sha256 image.bytes) signature key then
        .jump entry ⟨sha256 image.bytes, signature, key⟩
      else .reset (.imageRejected (.judged ⟨sha256 image.bytes, signature, key⟩ false)) := by
  rcases powerOn_cases check key ⟨m, quiet⟩ with ⟨hheard, -⟩ | ⟨-, link, hrun⟩
  · exact absurd hheard (not_hostHeard_of_silent hsilent)
  · have hverify := h.verify_eq (by decide) check key
    rw [hrun]
    exact @verifyAndBoot_ending _ _ _ _ check key ⟨m, link⟩ _ _ hverify

/-- An update installs its image and the next run starts it: every request of the update has a frame;
the run that takes them in resets after it has sent its answer and one acknowledgement for each data,
size and signature request; the image is then in place with the old vector before it and the old
loader behind it; and a run without a host asks about that image, and starts it if told that it is
genuine. -/
theorem update_then_boot (check : Check) (key : Vector UInt8 33) {m : Nor flashSize}
    (hpower : m.power = none) (image : Image) (signature : Vector UInt8 signatureLen)
    {link : Script} (hsends : link.sendsLeft = none)
    (hknock : handshakeRequest <+: Script.arriving (link.incoming.take pollLimit))
    (hstream : Script.arriving link.incoming = handshakeRequest ++ updateStream image signature)
    {quiet : Script} (hsilent : Script.arriving quiet.incoming = []) :
    (∀ r ∈ updateRequests image signature, r.encode? = some r.frame) ∧
    (powerOn check key ⟨m, link⟩).ending = .reset (.sessionOver .stopped) ∧
    (powerOn check key ⟨m, link⟩).board.link.sent = link.sent ++ handshakeResponse.toArray ++
      Array.replicate (image.chunks.length + 2) Status.ack.toByte ∧
    Installed (m.slice 0 vectorLen) image signature m.cells
      (powerOn check key ⟨m, link⟩).board.flash.cells ∧
    (powerOn check key ⟨(powerOn check key ⟨m, link⟩).board.flash, quiet⟩).ending =
      if check (sha256 image.bytes) signature key then
        .jump entry ⟨sha256 image.bytes, signature, key⟩
      else .reset (.imageRejected (.judged ⟨sha256 image.bytes, signature, key⟩ false)) := by
  have hupdates := updates_of_stream hpower image signature hsends hknock hstream check key
  have hinstalled : Installed (m.slice 0 vectorLen) image signature m.cells
      (powerOn check key ⟨m, link⟩).board.flash.cells := by
    rw [hupdates.flash]
    exact installed_updated m image signature
  have hencoded : ∀ r ∈ updateRequests image signature, r.encode? = some r.frame := by
    intro r hr
    obtain ⟨hfits, -⟩ := mem_updateRequests hr
    exact Request.encode?_eq_of_fits hfits
  refine ⟨hencoded, hupdates.ending, ?_, hinstalled, ?_⟩
  · rw [← length_programRequests image signature]
    exact hupdates.sent
  · exact boots_installed hinstalled hsilent check key

/-- A blank device that is given an image of one byte starts it. -/
theorem blank_device_starts_one_byte_image :
    (powerOn (fun _ _ _ => true) (Vector.replicate 33 2)
      ⟨(powerOn (fun _ _ _ => true) (Vector.replicate 33 2) ⟨Nor.blank flashSize, Script.plain
          (handshakeRequest ++ updateStream (Image.ofByte 0x12) (Vector.replicate signatureLen 7))⟩
        ).board.flash, Script.plain []⟩).ending =
      .jump entry
        ⟨sha256 [0x12], Vector.replicate signatureLen 7, Vector.replicate 33 2⟩ := by
  have hupdate := update_then_boot (fun _ _ _ => true) (Vector.replicate 33 2)
    (show (Nor.blank flashSize).power = none from rfl) (Image.ofByte 0x12)
    (Vector.replicate signatureLen 7) rfl (knock_plain _) (Script.arriving_map_byte _)
    (show Script.arriving (Script.plain []).incoming = [] from rfl)
  obtain ⟨-, -, -, -, hending⟩ := hupdate
  exact hending

end SignedBoot.Device
