import Mathlib.Data.List.Basic
import Mathlib.Tactic.Common
import SignedBoot.Proofs.Device.BootDecision
import SignedBoot.Proofs.Device.Trapping
import SignedBoot.Proofs.Device.UpdateSession
import SignedBoot.Proofs.Flash.EraseSequence

/-!
# Runs without a trap

The checked operations put together to a whole run, from power-on to the end. No run traps: every byte
that is received finds its place in the buffer, every request that can be read from it is in reach, and
the image size found in memory, whatever it is, has been looked at before anything is read with it.

For the same reasons no command leaves the memory or misses a block boundary. The only thing that can
go wrong with the memory is that the power is cut.
-/

namespace SignedBoot.Device

open Flash Layout Wire

namespace Trapping

variable {n k : Nat} {σ ε : Type} [Channel σ ε]

/-! ## Listening for a host -/

def advance (matched : Nat) (b : UInt8) : Except Trap Nat := do
  let expected ← get handshakeRequest matched
  if b = expected then add matched 1 else return 0

def listen : (left matched : Nat) → Attempt σ (Crash ε) Bool
  | 0, _ => return false
  | left + 1, matched => do
    match ← safe (Channel.poll (1000 * pollInterval)) with
    | none => listen left matched
    | some b =>
      let matched ← checked (advance matched b)
      if matched = handshakeRequest.length then return true
      else listen left matched

def awaitHandshake : Attempt σ (Crash ε) Bool := do
  safe (Attempt.update (Channel.setReceive true))
  listen pollLimit 0

theorem advance_eq {matched : Nat} (h : matched < handshakeRequest.length) (b : UInt8) :
    advance matched b = .ok (Device.advance matched b) := by
  have hspace : matched + 1 < addressSpace := by
    have hlen : matched < 5 := h
    have hbig : 6 < addressSpace := by decide
    omega
  have hsome : handshakeRequest[matched]? = some handshakeRequest[matched] :=
    List.getElem?_eq_getElem h
  rw [advance, get_ok h, Device.advance, hsome]
  by_cases hb : b = handshakeRequest[matched]
  · rw [if_pos (congrArg some hb.symm)]
    show (if b = handshakeRequest[matched] then _ else _) = _
    rw [if_pos hb, add_ok hspace]
  · rw [if_neg fun heq => hb (Option.some.inj heq).symm]
    show (if b = handshakeRequest[matched] then _ else _) = _
    rw [if_neg hb]
    rfl

/-- The match in progress is never longer than the request, as a whole match ends the listening. -/
theorem listen_eq (left : Nat) {matched : Nat} (h : matched < handshakeRequest.length) :
    (listen left matched : Attempt σ (Crash ε) Bool) = safe (Device.listen left matched) := by
  induction left generalizing matched with
  | zero => rfl
  | succ left ih =>
    rw [listen, Device.listen, safe_bind]
    refine congrArg _ (funext fun found => ?_)
    cases found with
    | none => exact ih h
    | some b =>
      have hle : Device.advance matched b ≤ handshakeRequest.length := by
        unfold Device.advance
        split
        · exact h
        · exact Nat.zero_le _
      simp only [advance_eq h, checked_ok, pure_bind]
      split
      · rfl
      · next hne => exact ih (Nat.lt_of_le_of_ne hle hne)

theorem awaitHandshake_eq :
    (awaitHandshake : Attempt σ (Crash ε) Bool) = safe Device.awaitHandshake := by
  rw [awaitHandshake, Device.awaitHandshake, safe_bind, listen_eq pollLimit (by decide)]

/-! ## Update sessions -/

structure Session (n : Nat) where
  flash : Nor n
  buffer : Buffer

def Session.ofSession (s : Device.Session n k) : Session n :=
  ⟨s.flash, .ofAssembler s.assembler⟩

def Session.take (s : Session n) (b : UInt8) : Except Trap (Outcome × Session n) := do
  match ← s.buffer.feed b with
  | (buffer, none) => return (.quiet, ⟨s.flash, buffer⟩)
  | (buffer, some frame) =>
    match ← settle (handleFrame frame) s.flash with
    | (.ok .proceed, flash) => return (.executed, ⟨flash, buffer⟩)
    | (.ok .restart, flash) => return (.stopped, ⟨flash, buffer⟩)
    | (.error why, flash) => return (.refused why, ⟨flash, buffer⟩)

/-- Serves a session to its end, and gives that, the memory and the channel. -/
def serve (s : Session n) (link : σ) : Except Trap (SessionEnd ε × Nor n × σ) :=
  match _hreceive : Channel.receive.run link with
  | (.error e, link) => .ok (.linkLost e, s.flash, link)
  | (.ok b, link1) =>
    match s.take b with
    | .error t => .error t
    | .ok (.quiet, s) => serve s link1
    | .ok (.stopped, s) => .ok (.stopped, s.flash, link1)
    | .ok (.refused why, s) => .ok (.refused why, s.flash, link1)
    | .ok (.executed, s) =>
      match _hsend : (Channel.send Status.ack.toByte).run link1 with
      | (.error e, link2) => .ok (.linkLost e, s.flash, link2)
      | (.ok (), link2) => serve s link2
termination_by Channel.pending link
decreasing_by
  · exact Channel.receive_pending _hreceive
  · exact Nat.lt_of_le_of_lt (Channel.send_pending _hsend) (Channel.receive_pending _hreceive)

theorem Session.take_eq (hk : k < addressSpace) (s : Device.Session n k) (b : UInt8) :
    (ofSession s).take b = .ok ((s.take b).1, ofSession (s.take b).2) := by
  unfold Session.take Device.Session.take
  rw [ofSession, Buffer.feed_eq hk]
  rcases s.assembler.feed b with ⟨assembler, _ | frame⟩
  · rfl
  · show (settle (handleFrame frame) s.flash >>= _) = _
    rw [handleFrame_eq, settle_safe]
    show _ = Except.ok _
    simp only
    rcases (Device.handleFrame frame).run s.flash with ⟨why | next, flash⟩
    · rfl
    · cases next with
      | proceed => rfl
      | restart => rfl

theorem serve_of_receive_error {s : Session n} {link link1 : σ} {e : ε}
    (hreceive : Channel.receive.run link = (.error e, link1)) :
    serve s link = .ok (.linkLost e, s.flash, link1) := by
  rw [serve]
  split
  · next heq =>
    rw [hreceive] at heq
    cases heq
    rfl
  · next heq =>
    rw [hreceive] at heq
    cases heq

theorem serve_of_take {s s1 : Session n} {link link1 : σ} {b : UInt8} {outcome : Outcome}
    (hreceive : Channel.receive.run link = (.ok b, link1)) :
    s.take b = .ok (outcome, s1) → serve s link =
      match outcome with
      | .quiet => serve s1 link1
      | .stopped => .ok (.stopped, s1.flash, link1)
      | .refused why => .ok (.refused why, s1.flash, link1)
      | .executed =>
        match (Channel.send Status.ack.toByte).run link1 with
        | (.error e, link2) => .ok (.linkLost e, s1.flash, link2)
        | (.ok (), link2) => serve s1 link2 := by
  intro htake
  rw [serve]
  split
  · next heq =>
    rw [hreceive] at heq
    cases heq
  · next heq =>
    rw [hreceive] at heq
    cases heq
    rw [htake]
    cases outcome with
    | quiet => rfl
    | stopped => rfl
    | refused why => rfl
    | executed =>
      simp only
      split
      · next hsend => rw [hsend]
      · next hsend => rw [hsend]

/-- Nothing that is received makes a session trap. -/
theorem serve_eq (hk : k < addressSpace) (s : Device.Session n k) (link : σ) :
    serve (.ofSession s) link = .ok ((Device.serve s link).ending,
      (Device.serve s link).session.flash, (Device.serve s link).link) := by
  have hstep {s s1 : Device.Session n k} {b : UInt8} {outcome : Outcome}
      (htake : s.take b = (outcome, s1)) : (Session.ofSession s).take b = .ok (outcome, .ofSession s1) := by
    rw [Session.take_eq hk, htake]
  fun_induction Device.serve s link with
  | case1 s link e link1 hreceive => exact serve_of_receive_error hreceive
  | case2 s link b link1 hreceive s1 htake ih =>
    rw [serve_of_take hreceive (hstep htake)]
    exact ih
  | case3 s link b link1 hreceive s1 htake => exact serve_of_take hreceive (hstep htake)
  | case4 s link b link1 hreceive why s1 htake => exact serve_of_take hreceive (hstep htake)
  | case5 s link b link1 hreceive s1 htake e link2 hsend =>
    rw [serve_of_take hreceive (hstep htake)]
    simp only [hsend]
    rfl
  | case6 s link b link1 hreceive s1 htake link2 hsend ih =>
    rw [serve_of_take hreceive (hstep htake)]
    simp only [hsend]
    exact ih

/-! ## Verification -/

def canonicalize (block : Bytes) : Except Trap Bytes := do
  let word ← slice block vectorLen (2 * vectorLen)
  let moved ← copy block 0 vectorLen word
  copy moved vectorLen (2 * vectorLen) (List.replicate vectorLen erased)

/-- Reads the piece of an image at `addr` to the front of a buffer. -/
def readPiece (buffer : Bytes) (addr len : Nat) : Attempt (Nor n) (Crash Fault) Bytes :=
  if addr = 0 then do
    let block ← read 0 buffer.length
    let buffer ← checked (copy buffer 0 buffer.length block)
    checked (canonicalize buffer)
  else do
    let target ← checked (slice buffer 0 len)
    let piece ← read addr target.length
    checked (copy buffer 0 len piece)

/-- Reads an image from `addr` on, piece by piece into the same buffer, and gives the bytes that were
hashed. -/
def hashed (buffer : Bytes) (addr remaining : Nat) : Attempt (Nor n) (Crash Fault) Bytes :=
  if remaining = 0 then pure []
  else do
    let len := min remaining blockSize
    let buffer ← readPiece buffer addr len
    let piece ← checked (slice buffer 0 len)
    checked (require (addr + len < addressSpace) .overflow)
    checked (require (len ≤ remaining) .overflow)
    let rest ← hashed buffer (addr + len) (remaining - len)
    return piece ++ rest
termination_by remaining
decreasing_by
  show remaining - min remaining 64 < remaining
  omega

/-- Reads a field of `width` bytes. -/
def readField (addr width : Nat) : Attempt (Nor n) (Crash Fault) (Vector UInt8 width) := do
  match Bytes.toField? width (← read addr width) with
  | some field => return field
  | none => checked (.error .slice)

def verify (hash : Bytes → Digest) (check : Check) (key : Vector UInt8 33) :
    Attempt (Nor n) (Crash Fault) Finding := do
  let size ← readField sizeField sizeLen
  if PossibleSize (Bytes.ofField size) then
    let bytes ← hashed (List.replicate blockSize 0) 0 (Bytes.ofField size)
    let signature ← readField signatureField signatureLen
    return .judged ⟨hash bytes, signature, key⟩ (check (hash bytes) signature key)
  else return .noImage (Bytes.ofField size)

theorem run_read_ok (m : Nor n) {addr len : Nat} (h : addr + len ≤ n) :
    (read addr len).run m = (.ok (m.slice addr len), m) := by
  have hread : (Flash.read addr len).run m = (.ok (m.slice addr len), m) :=
    congrArg (·, m) (m.read_eq_ok h)
  rw [read_eq, run_safe_ok hread]

theorem canonicalize_eq {block : Bytes} (h : 2 * vectorLen ≤ block.length) :
    canonicalize block = .ok (canonical block) := by
  obtain ⟨word, hword⟩ : ∃ word, (block.drop vectorLen).take vectorLen = word := ⟨_, rfl⟩
  have hlong : 8 ≤ block.length := h
  have hlen : word.length = vectorLen := by
    rw [← hword, List.length_take, List.length_drop]
    simp only [vectorLen]
    omega
  have hslice : (block.take (2 * vectorLen)).drop vectorLen = word := by
    rw [← hword, List.drop_take]
    rfl
  have hmoved : 2 * vectorLen ≤ (word ++ block.drop vectorLen).length := by
    rw [List.length_append, List.length_drop, hlen]
    omega
  have hgap : 2 * vectorLen - vectorLen = (List.replicate vectorLen erased).length := rfl
  have hrest : (word ++ block.drop vectorLen).drop (2 * vectorLen) = block.drop (2 * vectorLen) := by
    rw [List.drop_append, List.drop_of_length_le (by rw [hlen]; decide), List.nil_append, hlen,
      List.drop_drop]
    rfl
  rw [canonicalize, slice_ok (by decide) h, hslice]
  show (copy block 0 vectorLen word >>= _) = _
  rw [copy_ok (Nat.zero_le _) (Nat.le_trans (by decide) h) hlen.symm, List.take_zero,
    List.nil_append]
  show copy (word ++ block.drop vectorLen) vectorLen (2 * vectorLen) _ = _
  rw [copy_ok (by decide) hmoved hgap, List.take_left' hlen, hrest, canonical, hword]

theorem length_canonical {block : Bytes} (h : 2 * vectorLen ≤ block.length) :
    (canonical block).length = block.length := by
  have hlen : 8 ≤ block.length := h
  simp only [canonical, List.length_append, List.length_take, List.length_drop, List.length_replicate,
    vectorLen]
  omega

/-- A piece in bounds is read to the front of the buffer, which keeps its length. -/
theorem run_readPiece (m : Nor n) (hblock : blockSize ≤ n) {buffer : Bytes}
    (hbuffer : buffer.length = blockSize) {addr len : Nat} (hn : addr + len ≤ n)
    (hlen : len ≤ blockSize) :
    ∃ buffer', (readPiece buffer addr len).run m = (.ok buffer', m) ∧ buffer'.length = blockSize ∧
      Device.readPiece m addr len = .ok (buffer'.take len) := by
  by_cases h0 : addr = 0
  · have hfirst : 0 + blockSize ≤ n := by omega
    have hslice : (m.slice 0 blockSize).length = blockSize := m.length_slice hfirst
    have htwo : 2 * vectorLen ≤ (m.slice 0 blockSize).length := by rw [hslice]; decide
    refine ⟨canonical (m.slice 0 blockSize), ?_, ?_, ?_⟩
    · rw [readPiece, if_pos h0, hbuffer, Attempt.run_bind_ok (run_read_ok m hfirst),
        copy_ok (Nat.zero_le _) (Nat.le_of_eq hbuffer.symm) (by rw [hslice]; rfl), checked_ok, pure_bind,
        List.take_zero, List.nil_append, List.drop_of_length_le (Nat.le_of_eq hbuffer),
        List.append_nil, canonicalize_eq htwo]
      rfl
    · rw [length_canonical htwo, hslice]
    · rw [Device.readPiece, if_pos h0, m.read_eq_ok hfirst]
      rfl
  · have hslice : (m.slice addr len).length = len := m.length_slice hn
    have hfits : len ≤ buffer.length := by rw [hbuffer]; exact hlen
    have htarget : ((buffer.take len).drop 0).length = len := List.length_take_of_le hfits
    refine ⟨m.slice addr len ++ buffer.drop len, ?_, ?_, ?_⟩
    · rw [readPiece, if_neg h0, slice_ok (Nat.zero_le _) hfits, checked_ok, pure_bind, htarget,
        Attempt.run_bind_ok (run_read_ok m hn), copy_ok (Nat.zero_le _) hfits (by rw [hslice]; rfl)]
      rfl
    · rw [List.length_append, hslice, List.length_drop, hbuffer]
      omega
    · rw [Device.readPiece, if_neg h0, m.read_eq_ok hn, List.take_left' hslice]

/-- Reading an image in bounds from a block boundary on does not trap. -/
theorem run_hashed (m : Nor n) (hblock : blockSize ≤ n) (hspace : n < addressSpace) {buffer : Bytes}
    (hbuffer : buffer.length = blockSize) {addr remaining : Nat} (hn : addr + remaining ≤ n)
    (haligned : addr % blockSize = 0) :
    (hashed buffer addr remaining).run m =
      (.ok ((List.range' addr remaining).map (signedByte m)), m) := by
  induction remaining using Nat.strongRecOn generalizing buffer addr with
  | ind remaining ih =>
  by_cases h0 : remaining = 0
  · subst h0
    rw [hashed, if_pos rfl]
    rfl
  have hle : min remaining blockSize ≤ remaining := Nat.min_le_left _ _
  have hcap : min remaining blockSize ≤ blockSize := Nat.min_le_right _ _
  have hpos : 0 < min remaining blockSize := Nat.lt_min.2 ⟨Nat.pos_of_ne_zero h0, by decide⟩
  obtain ⟨buffer', hread, hbuffer', hpiece⟩ := run_readPiece m hblock hbuffer
    (show addr + min remaining blockSize ≤ n by omega) hcap
  rw [readPiece_eq_ok m (by omega) hblock haligned hcap] at hpiece
  have htake := (Except.ok.inj hpiece).symm
  have hrest : (hashed buffer' (addr + min remaining blockSize)
      (remaining - min remaining blockSize)).run m = (.ok ((List.range' (addr + min remaining blockSize)
        (remaining - min remaining blockSize)).map (signedByte m)), m) := by
    by_cases hlast : remaining ≤ blockSize
    · -- the last piece may end inside a block, but nothing follows it
      rw [Nat.min_eq_left hlast, Nat.sub_self, hashed, if_pos rfl]
      rfl
    · have hwhole : min remaining blockSize = blockSize := Nat.min_eq_right (by omega)
      refine ih _ (by omega) hbuffer' (by omega) ?_
      rw [hwhole, Nat.add_mod_right]
      exact haligned
  have hfits : min remaining blockSize ≤ buffer'.length := by rw [hbuffer']; exact hcap
  have hend : addr + min remaining blockSize < addressSpace := by omega
  rw [hashed, if_neg h0, Attempt.run_bind_ok hread]
  simp only [slice_ok (Nat.zero_le _) hfits, require_ok hend, require_ok hle, checked_ok, pure_bind]
  rw [Attempt.run_bind_ok hrest, List.drop_zero, htake, Attempt.run_pure, ← List.map_append,
    List.range'_append_1, Nat.add_sub_cancel' hle]

theorem run_readField (m : Nor n) {addr width : Nat} (h : addr + width ≤ n) :
    ∃ field : Vector UInt8 width, field.toList = m.slice addr width ∧
      (readField addr width).run m = (.ok field, m) := by
  have hlen : (m.slice addr width).length = width := m.length_slice h
  refine ⟨⟨(m.slice addr width).toArray, hlen⟩, rfl, ?_⟩
  rw [readField, Attempt.run_bind_ok (run_read_ok m h), Bytes.toField?, dif_pos hlen]
  rfl

/-- Whatever the memory holds, looking at the image in it neither traps nor fails. -/
theorem exists_verify_eq (hash : Bytes → Digest) (check : Check) (key : Vector UInt8 33) (m : Nor n)
    (hn : loaderBase ≤ n) (hspace : n < addressSpace) :
    ∃ finding, (verify hash check key).run m = (.ok finding, m) ∧
      Device.verify hash check key m = .ok finding := by
  have hblock : blockSize ≤ n := Nat.le_trans (by decide) hn
  have hfield : sizeField + sizeLen ≤ n := hn
  have hrecord : signatureField + signatureLen ≤ n := Nat.le_trans (by decide) hn
  obtain ⟨size, hsize, hrunsize⟩ := run_readField m hfield
  obtain ⟨signature, hsignature, hrunsignature⟩ := run_readField m hrecord
  have himageSize : m.imageSize = .ok (Bytes.ofField size) := by
    rw [Nor.imageSize, m.read_eq_ok hfield, Bytes.ofField, hsize]
    rfl
  have himageSignature : m.signature = .ok signature := by
    rw [Nor.signature, dif_pos hrecord]
    refine congrArg _ (Vector.toList_inj.1 ?_)
    rw [hsignature, Vector.toList, Vector.toArray_cast, Vector.toArray_extract, Nor.slice]
  unfold verify
  rw [Device.verify_eq, Attempt.run_bind_ok hrunsize, himageSize]
  by_cases hpossible : PossibleSize (Bytes.ofField size)
  · have hfits : Bytes.ofField size ≤ n := le_of_possibleSize hn hpossible
    have hhashed : (hashed (List.replicate blockSize 0) 0 (Bytes.ofField size)).run m =
        (.ok (signedBytes m (Bytes.ofField size)), m) := by
      rw [run_hashed m hblock hspace List.length_replicate (by omega) rfl, signedBytes,
        List.range_eq_range']
    refine ⟨.judged ⟨hash (signedBytes m (Bytes.ofField size)), signature, key⟩
      (check (hash (signedBytes m (Bytes.ofField size))) signature key), ?_, ?_⟩
    · rw [if_pos hpossible, Attempt.run_bind_ok hhashed, Attempt.run_bind_ok hrunsignature]
      rfl
    · simp only [bind, Except.bind]
      rw [if_pos hpossible, imageDigest_eq_ok hash m hblock hfits, himageSignature]
      rfl
  · refine ⟨.noImage (Bytes.ofField size), ?_, ?_⟩
    · rw [if_neg hpossible]
      rfl
    · simp only [bind, Except.bind]
      rw [if_neg hpossible]
      rfl

theorem settle_verify (hash : Bytes → Digest) (check : Check) (key : Vector UInt8 33) (m : Nor n)
    (hn : loaderBase ≤ n) (hspace : n < addressSpace) :
    settle (verify hash check key) m = .ok (Device.verify hash check key m, m) := by
  obtain ⟨finding, hrun, hfinding⟩ := exists_verify_eq hash check key m hn hspace
  rw [settle, hrun, hfinding]

/-! ## Whole runs -/

def verifyAndBoot (check : Check) (key : Vector UInt8 33) (b : Board n σ) :
    Except Trap (Run n σ ε) := do
  match ← settle (verify sha256 check key) b.flash with
  | (.ok (.judged question true), flash) =>
    return ⟨.jump entry question, ⟨flash, tell .signatureValid b.link⟩⟩
  | (.ok finding, flash) =>
    return ⟨.reset (.imageRejected finding), ⟨flash, tell .signatureInvalid b.link⟩⟩
  | (.error fault, flash) =>
    return ⟨.reset (.imageUnreadable fault), ⟨flash, tell .signatureInvalid b.link⟩⟩

def receiveUpdate (b : Board n σ) : Except Trap (Run n σ ε) := do
  let (ending, flash, link) ← serve ⟨b.flash, ⟨List.replicate frameCapacity 0, 0, false⟩⟩ b.link
  let link :=
    match ending with
    | .refused why =>
      match why.status? with
      | some status => tell status link
      | none => link
    | _ => link
  return ⟨.reset (.sessionOver ending), ⟨flash, link⟩⟩

def update (b : Board n σ) : Except Trap (Run n σ ε) := do
  let link := Channel.setReceive false b.link
  match ← settle (eraseBelow loaderBase) b.flash with
  | (.error fault, flash) => return ⟨.reset (.eraseFailed fault), ⟨flash, link⟩⟩
  | (.ok (), flash) =>
    match (Channel.sendAll handshakeResponse).run link with
    | (.error e, link) => return ⟨.reset (.answerLost e), ⟨flash, link⟩⟩
    | (.ok (), link) => receiveUpdate ⟨flash, Channel.setReceive true link⟩

/-- Runs the device from power-on until it resets or the application starts, or a check fails. -/
def powerOn (check : Check) (key : Vector UInt8 33) (b : Board n σ) : Except Trap (Run n σ ε) := do
  match ← settle awaitHandshake b.link with
  | (.ok true, link) => update { b with link }
  | (.ok false, link) => verifyAndBoot check key { b with link }
  | (.error _, link) => verifyAndBoot check key { b with link }

theorem verifyAndBoot_eq (check : Check) (key : Vector UInt8 33) (b : Board n σ)
    (hn : loaderBase ≤ n) (hspace : n < addressSpace) :
    verifyAndBoot check key b = .ok (Device.verifyAndBoot check key b : Run n σ ε) := by
  rw [verifyAndBoot, settle_verify sha256 check key b.flash hn hspace, Device.verifyAndBoot]
  rcases Device.verify sha256 check key b.flash with fault | (size | ⟨question, _ | _⟩) <;> rfl

theorem receiveUpdate_eq (b : Board n σ) :
    receiveUpdate b = .ok (Device.receiveUpdate b : Run n σ ε) := by
  have hempty : (Session.ofSession ⟨b.flash, Assembler.empty frameCapacity⟩ : Session n) =
      ⟨b.flash, ⟨List.replicate frameCapacity 0, 0, false⟩⟩ := rfl
  have hspace : frameCapacity < addressSpace := by decide
  rw [receiveUpdate, ← hempty, serve_eq hspace]
  rfl

theorem update_eq (b : Board n σ) : update b = .ok (Device.update b : Run n σ ε) := by
  rw [update, eraseBelow_eq (by decide), settle_safe, Device.update]
  simp only [bind, Except.bind]
  rcases (Flash.eraseBelow loaderBase).run b.flash with ⟨fault | ⟨⟩, flash⟩
  · rfl
  · simp only
    rcases (Channel.sendAll handshakeResponse).run (Channel.setReceive false b.link)
      with ⟨e | ⟨⟩, link⟩
    · rfl
    · exact receiveUpdate_eq _

/-- No run of the device traps. -/
theorem powerOn_eq (check : Check) (key : Vector UInt8 33) (b : Board n σ) (hn : loaderBase ≤ n)
    (hspace : n < addressSpace) :
    powerOn check key b = .ok (Device.powerOn check key b : Run n σ ε) := by
  rw [powerOn, awaitHandshake_eq, settle_safe, Device.powerOn]
  simp only [bind, Except.bind]
  rcases Device.awaitHandshake.run b.link with ⟨e | _ | _, link⟩
  · exact verifyAndBoot_eq check key _ hn hspace
  · exact verifyAndBoot_eq check key _ hn hspace
  · exact update_eq _

end Trapping

end SignedBoot.Device
