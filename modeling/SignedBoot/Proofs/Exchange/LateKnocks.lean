import SignedBoot.Proofs.Device.UpdateThenBoot
import SignedBoot.Proofs.Exchange.Steps

/-!
# Knocks that come late

The host repeats its start sequence while it is not answered, and the device erases for a long time.
What arrives meanwhile is lost, but a start sequence may still be on its way when the device turns its
receiver on. The session then takes it for a frame, and since no command has the letter `B`, a whole
start sequence that arrives late ends the session. It takes a whole one: the rest of a start sequence
that has no `@` in it is noise that the first request clears away.

So the session is fed request bytes alone exactly if every byte of a start sequence had arrived when
the receiver was turned on, and as long as no request byte was lost by then, a session that is refused
for its payload is one that was fed a whole start sequence.
-/

namespace SignedBoot.Exchange

open Flash Layout Wire Host Device

variable {n : Nat}

/-! ## Repeated start sequences -/

/-- A number of start sequences. -/
def knocks (count : Nat) : Bytes :=
  (List.replicate count handshakeRequest).flatten

theorem knocks_succ (count : Nat) : knocks (count + 1) = handshakeRequest ++ knocks count := by
  unfold knocks
  rw [List.replicate_succ, List.flatten_cons]

theorem knocks_concat (count : Nat) : knocks count ++ handshakeRequest = knocks (count + 1) := by
  unfold knocks
  rw [List.replicate_succ', List.flatten_concat]

/-- Bytes that neither open a frame nor escape anything. -/
def Noise (bs : Bytes) : Prop :=
  ∀ b ∈ bs, b ≠ frameStart ∧ b ≠ frameEscape

theorem Noise.of_append_right {xs ys : Bytes} (h : Noise (xs ++ ys)) : Noise ys :=
  fun b hb => h b (List.mem_append_right _ hb)

theorem Noise.of_append_left {xs ys : Bytes} (h : Noise (xs ++ ys)) : Noise xs :=
  fun b hb => h b (List.mem_append_left _ hb)

theorem Noise.not_suffix {noise front : Bytes} (h : Noise noise) (hfront : front <+: noise) :
    ¬ handshakeRequest <:+ front := by
  intro hsuffix
  have hmem : frameStart ∈ noise := hfront.subset (hsuffix.subset List.mem_cons_self)
  exact (h _ hmem).1 rfl

theorem noise_tail : Noise handshakeRequest.tail := by
  intro b hb
  have hb : b = 0x42 ∨ b = 0x54 ∨ b = 0x4C ∨ b = 0x0A := by
    simpa [handshakeRequest] using hb
  rcases hb with rfl | rfl | rfl | rfl <;> decide

/-- What is left of repeated start sequences behind any point is some noise and then whole start
sequences. -/
theorem exists_noise {before rest : Bytes} {count : Nat} (h : before ++ rest = knocks count) :
    ∃ noise left, Noise noise ∧ rest = noise ++ knocks left := by
  induction count generalizing before with
  | zero =>
    obtain ⟨-, rfl⟩ := List.append_eq_nil_iff.1 h
    exact ⟨[], 0, fun _ hb => absurd hb List.not_mem_nil, rfl⟩
  | succ count ih =>
    rw [knocks_succ] at h
    rcases List.append_eq_append_iff.1 h with ⟨more, hknock, rfl⟩ | ⟨more, rfl, hrest⟩
    · cases before with
      | nil =>
        refine ⟨[], count + 1, fun _ hb => absurd hb List.not_mem_nil, ?_⟩
        rw [List.nil_append, knocks_succ, hknock]
        rfl
      | cons b before =>
        have htail : handshakeRequest.tail = before ++ more := by
          rw [hknock]
          rfl
        have hnoise := noise_tail
        rw [htail] at hnoise
        exact ⟨more, count, hnoise.of_append_right, rfl⟩
    · exact ih hrest.symm

/-- The front of a start sequence does not end with a whole one, whatever noise stands before it. -/
theorem not_suffix_of_front {noise front : Bytes} (hnoise : Noise noise)
    (hfront : front <+: handshakeRequest) (hne : front ≠ handshakeRequest) :
    ¬ handshakeRequest <:+ noise ++ front := by
  intro hsuffix
  have hlen : front.length ≤ handshakeRequest.length := hfront.length_le
  have hinside : front <:+ handshakeRequest :=
    List.suffix_of_suffix_length_le (List.suffix_append noise front) hsuffix hlen
  rcases List.suffix_cons_iff.1 hinside with hwhole | htail
  · exact hne hwhole
  rcases List.prefix_cons_iff.1 hfront with rfl | ⟨more, rfl, -⟩
  · rw [List.append_nil] at hsuffix
    exact hnoise.not_suffix List.prefix_rfl hsuffix
  · exact (noise_tail _ (htail.subset List.mem_cons_self)).1 rfl

/-! ## What the session makes of them -/

/-- Noise completes nothing, and leaves no escape pending. -/
theorem feed_noise {k : Nat} (hk : 1 < k) {a : Assembler k} {bs : Bytes} (hescaped : a.escaped = false)
    (hhead : a.collected.head? ≠ some frameStart) (hnoise : Noise bs) :
    a.frames bs = [] ∧ (a.after bs).escaped = false := by
  induction bs generalizing a with
  | nil => exact ⟨rfl, hescaped⟩
  | cons b bs ih =>
    obtain ⟨hstart, hescape⟩ := hnoise b List.mem_cons_self
    obtain ⟨hplain, hcollected, hquiet⟩ := Assembler.feed_reads hk a b
    have hread : Reading.ofByte a.escaped b = .plain b := by
      rw [hescaped]
      exact if_neg hescape
    rw [hread, gather, if_neg hstart, if_neg (fun h => hhead h.2)] at hcollected
    rw [hread, if_neg (fun h => hhead h.2)] at hquiet
    rw [hread] at hplain
    have hnext : (a.feed b).1.collected.head? ≠ some frameStart := by
      rw [hcollected, push]
      split
      · rcases hheld : a.collected with _ | ⟨first, held⟩
        · simpa using hstart
        · rw [hheld] at hhead
          exact hhead
      · simp
    obtain ⟨hframes, hafter⟩ := ih hplain hnext fun c hc => hnoise c (List.mem_cons_of_mem b hc)
    rw [Assembler.frames_cons, Assembler.after_cons, hquiet, hframes]
    exact ⟨rfl, hafter⟩

/-- A session that is fed some bytes has its assembler here. -/
abbrev fedAssembler (bs : Bytes) : Assembler frameCapacity :=
  (Assembler.empty frameCapacity frameCapacity_pos).after bs

theorem fedAssembler_noise {noise : Bytes} (h : Noise noise) :
    (Assembler.empty frameCapacity).frames noise = [] ∧ (fedAssembler noise).escaped = false :=
  feed_noise (by decide) rfl (by decide) h

/-- What a start sequence carries when it is taken for a frame. -/
def knockContent : Bytes := [0x42, 0x54, 0x4C]

/-- Behind noise the last byte of a start sequence is refused. -/
theorem take_knock {noise before : Bytes} {b : UInt8} (hnoise : Noise noise)
    (hknock : handshakeRequest = before ++ [b]) (m : Nor n) :
    Session.take ⟨m, fedAssembler (noise ++ before)⟩ b =
      (.refused .invalidPayload, ⟨m, fedAssembler (noise ++ handshakeRequest)⟩) := by
  have hfeed := Assembler.feed_last_of_wrap (fedAssembler_noise hnoise).2
    (show knockContent.length + 1 < frameCapacity by decide) hknock
  rw [← Assembler.after_append, ← Assembler.after_append] at hfeed
  unfold Session.take
  rw [hfeed]
  rfl

theorem take_of_frames_eq_nil {bs : Bytes} {b : UInt8}
    (h : (Assembler.empty frameCapacity).frames (bs ++ [b]) = []) (m : Nor n) :
    Session.take ⟨m, fedAssembler bs⟩ b = (.quiet, ⟨m, fedAssembler (bs ++ [b])⟩) := by
  rw [Assembler.frames_concat, List.append_eq_nil_iff] at h
  have hfeed : (fedAssembler bs).feed b = (fedAssembler (bs ++ [b]), none) :=
    Prod.ext (Assembler.after_concat _ bs b).symm (Option.toList_eq_nil_iff.1 h.2)
  unfold Session.take
  rw [hfeed]

/-- Up to its last byte a start sequence behind noise is only collected. -/
theorem frames_knock_front {noise front : Bytes} (hnoise : Noise noise)
    (hfront : front <+: handshakeRequest) (hlt : front ≠ handshakeRequest) :
    (Assembler.empty frameCapacity).frames (noise ++ front) = [] := by
  obtain ⟨hframes, hescaped⟩ := fedAssembler_noise hnoise
  obtain ⟨hquiet, -, -⟩ := Assembler.feed_wrap hescaped
    (show knockContent.length + 1 < frameCapacity by decide)
  have hbody : front <+: frameStart :: escape knockContent := by
    have hsplit : handshakeRequest = (frameStart :: escape knockContent) ++ [frameEnd] := rfl
    rw [hsplit, List.prefix_concat_iff] at hfront
    exact hfront.resolve_left (by rw [← hsplit]; exact hlt)
  rw [Assembler.frames_append, hframes, List.nil_append]
  have hprefix := Assembler.frames_prefix (fedAssembler noise) hbody
  rw [hquiet, List.prefix_nil] at hprefix
  exact hprefix

theorem handleFrame_ne_invalidPayload {image : Image} {signature : Vector UInt8 signatureLen}
    {r : Request} (hr : r ∈ updateRequests image signature) (m : Nor n) :
    ((handleFrame (Frame.ofContent r.content)).run m).1 ≠ .error .invalidPayload := by
  obtain ⟨hfits, hbytes⟩ := mem_updateRequests hr
  have hdenied : ¬ Denied r := by
    rcases List.mem_append.1 hr with hprogram | hstop
    · exact (mem_programRequests hprogram).2.2.1
    · obtain rfl := List.mem_singleton.1 hstop
      exact id
  rw [handleFrame_content hfits hbytes, execute_eq hdenied, run_orRefuse_bind_pure]
  split <;> simp

/-- Behind noise the bytes of an update are never refused for their payload. -/
theorem take_ne_invalidPayload {image : Image} {signature : Vector UInt8 signatureLen}
    {noise sent bs : Bytes} {b : UInt8} (hnoise : Noise noise)
    (hsent : sent <+: (updateRequests image signature).flatMap Request.frame)
    (hbytes : bs ++ [b] = noise ++ sent) (m : Nor n) :
    (Session.take ⟨m, fedAssembler bs⟩ b).1 ≠ .refused .invalidPayload := by
  obtain ⟨hquiet, hescaped⟩ := fedAssembler_noise hnoise
  have hroom : ∀ content ∈ (updateRequests image signature).map Request.content,
      content.length + 1 < frameCapacity := by
    intro content hcontent
    obtain ⟨r, hr, rfl⟩ := List.mem_map.1 hcontent
    exact Request.length_content_lt (mem_updateRequests hr).1
  have hall := Assembler.feed_wraps hescaped hroom
  rw [List.flatMap_map, List.map_map] at hall
  have hframes : (Assembler.empty frameCapacity).frames (bs ++ [b]) <+:
      (updateRequests image signature).map (Frame.ofContent ∘ Request.content) := by
    rw [hbytes, Assembler.frames_append, hquiet, List.nil_append, ← hall]
    exact Assembler.frames_prefix _ hsent
  rw [Assembler.frames_concat] at hframes
  unfold Session.take
  rcases hfeed : (fedAssembler bs).feed b with ⟨a, _ | frame⟩
  · simp
  · have hmem : frame ∈ (updateRequests image signature).map (Frame.ofContent ∘ Request.content) :=
      hframes.subset (by simp [hfeed])
    obtain ⟨r, hr, rfl⟩ := List.mem_map.1 hmem
    have hne := handleFrame_ne_invalidPayload hr m
    simp only [Function.comp_apply]
    rcases hrun : (handleFrame (Frame.ofContent r.content)).run m with ⟨why | next, m'⟩
    · rw [hrun] at hne
      intro heq
      cases heq
      exact hne rfl
    · cases next <;> simp

theorem assembler_take (s : Session n frameCapacity) (b : UInt8) :
    (s.take b).2.assembler = (s.assembler.feed b).1 := by
  unfold Session.take
  rcases s.assembler.feed b with ⟨a, _ | frame⟩
  · rfl
  · simp only
    rcases (handleFrame frame).run s.flash with ⟨why | next, m⟩
    · rfl
    · cases next <;> rfl

/-! ## What the host has written -/

/-- What the host has written when it stands in a stage: whole start sequences but for the rest of the
last one, and then whole requests but for the rest of the last one. -/
inductive HostWrote (requests : List Request) : Host.Stage → Bytes → Bytes → Prop where
  | knocking {left knocked : Bytes} {attempts count : Nat} (h : knocked ++ left = knocks count) :
    HostWrote requests (.knocking left attempts requests) knocked []
  | expecting {received : Bytes} {attempts : Nat} (count : Nat) :
    HostWrote requests (.expecting received attempts requests) (knocks count) []
  | sending {left written : Bytes} {done rest : List Request} (count : Nat)
    (hrequests : requests = done ++ rest) (h : written ++ left = done.flatMap Request.frame) :
    HostWrote requests (.sending left rest) (knocks count) written
  | awaiting {done rest : List Request} (count : Nat) (hrequests : requests = done ++ rest) :
    HostWrote requests (.awaiting rest) (knocks count) (done.flatMap Request.frame)
  | done {done rest : List Request} {result : Except Failure Unit} (count : Nat)
    (hrequests : requests = done ++ rest) :
    HostWrote requests (.done result) (knocks count) (done.flatMap Request.frame)

section
variable {requests : List Request} (hfits : ∀ r ∈ requests, r.Fits)
include hfits

theorem HostWrote.before (count : Nat) {done rest : List Request}
    (hrequests : requests = done ++ rest) :
    HostWrote requests (.before rest) (knocks count) (done.flatMap Request.frame) := by
  cases rest with
  | nil => exact .done count hrequests
  | cons r rest =>
    have hr : r ∈ requests := by
      rw [hrequests]
      exact List.mem_append_right _ List.mem_cons_self
    rw [Host.Stage.before_cons (hfits r hr)]
    have hnext : requests = (done ++ [r]) ++ rest := by rw [hrequests, List.append_cons]
    refine .sending count hnext ?_
    rw [List.flatMap_append, List.flatMap_singleton]

omit hfits in
theorem HostWrote.knock (requests : List Request) (attempts count : Nat) :
    HostWrote requests (.knock requests attempts) (knocks count) [] := by
  cases attempts with
  | zero => exact .done count (List.nil_append requests).symm
  | succ attempts => exact .knocking (knocks_concat count)

omit hfits in
theorem HostWrote.quiet {s : Host.Stage} {act : Host.Act} {before written : Bytes}
    (h : HostWrote requests s before written) (hknocked : knocked [.host act] = [])
    (hrequested : requested [.host act] = []) :
    HostWrote requests s (before ++ knocked [.host act]) (written ++ requested [.host act]) := by
  rw [hknocked, hrequested, List.append_nil, List.append_nil]
  exact h

theorem HostWrote.step {s t : Host.Stage} {act : Host.Act} {before written : Bytes}
    (h : HostWrote requests s before written) (hstep : s.Step act t) :
    HostWrote requests t (before ++ knocked [.host act]) (written ++ requested [.host act]) := by
  cases h with
  | knocking hcount =>
    cases hstep with
    | knocks =>
      rw [List.append_cons] at hcount
      exact .knocking hcount
    | knocked =>
      rw [List.append_nil] at hcount
      rw [hcount]
      exact (HostWrote.expecting _).quiet rfl rfl
  | expecting count =>
    cases hstep with
    | hearsAnswer =>
      exact (HostWrote.before hfits count (List.nil_append requests).symm).quiet rfl rfl
    | hearsMore => exact (HostWrote.expecting count).quiet rfl rfl
    | knocksAgain => exact (HostWrote.knock requests _ count).quiet rfl rfl
  | sending count hrequests hwritten =>
    cases hstep with
    | sends =>
      rw [List.append_cons] at hwritten
      have hnone : knocks count ++ [] = knocks count := List.append_nil _
      have hnext := HostWrote.sending count hrequests hwritten
      rw [← hnone] at hnext
      exact hnext
    | sent =>
      rw [List.append_nil] at hwritten
      rw [hwritten]
      exact (HostWrote.awaiting count hrequests).quiet rfl rfl
    | finishes =>
      rw [List.append_nil] at hwritten
      rw [hwritten]
      exact (HostWrote.done count hrequests).quiet rfl rfl
  | awaiting count hrequests =>
    cases hstep with
    | hearsNoise => exact (HostWrote.awaiting count hrequests).quiet rfl rfl
    | hearsAck => exact (HostWrote.before hfits count hrequests).quiet rfl rfl
    | hearsRefusal => exact (HostWrote.done count hrequests).quiet rfl rfl
    | givesUp => exact (HostWrote.done count hrequests).quiet rfl rfl
  | done => cases hstep

omit hfits in
/-- What has been written of the requests is the front of all of them, and only when whole start
sequences have been written. -/
theorem HostWrote.spec {s : Host.Stage} {before written : Bytes}
    (h : HostWrote requests s before written) :
    written <+: requests.flatMap Request.frame ∧
      ∃ left count, before ++ left = knocks count ∧ (written ≠ [] → left = []) := by
  have hfront : ∀ {done rest : List Request}, requests = done ++ rest →
      done.flatMap Request.frame <+: requests.flatMap Request.frame := by
    intro done rest hrequests
    rw [hrequests, List.flatMap_append]
    exact List.prefix_append _ _
  cases h with
  | knocking hcount => exact ⟨List.nil_prefix, _, _, hcount, fun hne => absurd rfl hne⟩
  | expecting count =>
    exact ⟨List.nil_prefix, [], count, List.append_nil _, fun _ => rfl⟩
  | sending count hrequests hwritten =>
    have hpart : written <+: _ := ⟨_, hwritten⟩
    exact ⟨hpart.trans (hfront hrequests), [], count, List.append_nil _, fun _ => rfl⟩
  | awaiting count hrequests =>
    exact ⟨hfront hrequests, [], count, List.append_nil _, fun _ => rfl⟩
  | done count hrequests =>
    exact ⟨hfront hrequests, [], count, List.append_nil _, fun _ => rfl⟩

omit hfits in
theorem HostWrote.knocks_or_requests {s t : Host.Stage} {act : Host.Act} {before written : Bytes}
    (h : HostWrote requests s before written) (hstep : s.Step act t) :
    written = [] ∨ knocked [.host act] = [] := by
  cases h with
  | knocking => exact Or.inl rfl
  | expecting => exact Or.inl rfl
  | sending => cases hstep <;> exact Or.inr rfl
  | awaiting => cases hstep <;> exact Or.inr rfl
  | done => cases hstep

end

/-! ## What the session has been fed -/

/-- The bytes fed to a session end with a whole start sequence, and all of them are of start
sequences. -/
def Surplus (passed fed knocked : Bytes) : Prop :=
  handshakeRequest <:+ fed ∧ passed ++ fed <+: knocked

/-- How the device stands to what it was fed: its assembler has taken just that, and it has refused a
payload exactly if that is a surplus start sequence. -/
structure Fed (passed fed knocked : Bytes) (device : Device.Stage n Empty) : Prop where
  assembler : ∀ session, device = .serving session ∨ device = .acknowledging session →
    session.assembler = fedAssembler fed
  refused : device.refusal? = some .invalidPayload → Surplus passed fed knocked
  spared : device.refusal? ≠ some .invalidPayload → ∀ front, front <+: fed →
    ¬ Surplus passed front knocked

theorem not_surplus_nil (passed knocked : Bytes) : ¬ Surplus passed [] knocked := by
  intro h
  cases List.suffix_nil.1 h.1

theorem Fed.of_nil {passed knocked : Bytes} {device : Device.Stage n Empty}
    (hrefusal : device.refusal? = none)
    (hassembler : ∀ session, device = .serving session ∨ device = .acknowledging session →
      session.assembler = Assembler.empty frameCapacity) : Fed passed [] knocked device where
  assembler := hassembler
  refused := fun h => by
    rw [hrefusal] at h
    cases h
  spared := fun _ front hfront => by
    obtain rfl := List.prefix_nil.1 hfront
    exact not_surplus_nil passed knocked

/-- A start sequence that is written while nothing else has been changes nothing. -/
theorem Fed.knock {passed fed knocked more : Bytes} {device : Device.Stage n Empty}
    (h : Fed passed fed knocked device) (hall : passed ++ fed <+: knocked) :
    Fed passed fed (knocked ++ more) device where
  assembler := h.assembler
  refused := fun hrefusal =>
    ⟨(h.refused hrefusal).1, (h.refused hrefusal).2.trans (List.prefix_append _ _)⟩
  spared := fun hrefusal front hfront hsurplus => by
    have hinside : passed ++ front <+: knocked :=
      ((List.prefix_append_right_inj passed).2 hfront).trans hall
    exact h.spared hrefusal front hfront ⟨hsurplus.1, hinside⟩

theorem refusal?_taken {outcome : Outcome × Session n frameCapacity} {why : Refusal} :
    (Device.Stage.taken outcome : Device.Stage n Empty).refusal? = some why ↔
      outcome.1 = .refused why := by
  obtain ⟨_ | _ | _ | why', s⟩ := outcome <;> simp [Device.Stage.taken, Device.Stage.refusal?]

theorem eq_of_taken {outcome : Outcome × Session n frameCapacity} {session : Session n frameCapacity}
    (h : Device.Stage.taken outcome = (.serving session : Device.Stage n Empty) ∨
      Device.Stage.taken outcome = (.acknowledging session : Device.Stage n Empty)) :
    session = outcome.2 := by
  obtain ⟨_ | _ | _ | why, s⟩ := outcome <;> rcases h with h | h <;> cases h <;> rfl

section
variable {image : Image} {signature : Vector UInt8 signatureLen} {passed fed knocked requested : Bytes}
  {b : UInt8}

/-- A byte of a late start sequence is refused for its payload exactly if it is the last of a whole
one. -/
theorem take_late {left : Bytes} {count : Nat} (hcount : knocked ++ left = knocks count)
    (hlate : passed ++ (fed ++ [b]) <+: knocked)
    (hspared : ∀ front, front <+: fed → ¬ Surplus passed front knocked) (m : Nor n) :
    (Session.take ⟨m, fedAssembler fed⟩ b).1 = .refused .invalidPayload ↔
      handshakeRequest <:+ fed ++ [b] := by
  obtain ⟨more, rfl⟩ := hlate
  have hrest : passed ++ ((fed ++ [b]) ++ (more ++ left)) = knocks count := by
    rw [← hcount]
    simp only [List.append_assoc]
  obtain ⟨noise, whole, hnoise, hsplit⟩ := exists_noise hrest
  -- a front of a start sequence behind noise is not refused
  have hquiet : ∀ {front : Bytes}, fed ++ [b] = noise ++ front → front <+: handshakeRequest →
      front ≠ handshakeRequest → ((Session.take ⟨m, fedAssembler fed⟩ b).1 = .refused .invalidPayload ↔
        handshakeRequest <:+ fed ++ [b]) := by
    intro front hfed hfront hne
    have hnone : (Assembler.empty frameCapacity).frames (fed ++ [b]) = [] := by
      rw [hfed]
      exact frames_knock_front hnoise hfront hne
    rw [take_of_frames_eq_nil hnone, hfed]
    exact iff_of_false (by simp) (not_suffix_of_front hnoise hfront hne)
  rcases List.append_eq_append_iff.1 hsplit with ⟨tail, hinside, -⟩ | ⟨front, hfed, hwhole⟩
  · -- all of it is noise
    rw [hinside] at hnoise
    have hfront := hnoise.of_append_left
    have hnone := (fedAssembler_noise hfront).1
    rw [take_of_frames_eq_nil hnone]
    exact iff_of_false (by simp) (hfront.not_suffix List.prefix_rfl)
  cases whole with
  | zero =>
    obtain ⟨rfl, -⟩ := List.append_eq_nil_iff.1 hwhole.symm
    exact hquiet hfed List.nil_prefix (by simp [handshakeRequest])
  | succ whole =>
    by_cases heq : front = handshakeRequest
    · -- the start sequence is complete
      subst heq
      have hends : fed ++ [b] = (noise ++ handshakeRequest.dropLast) ++ [0x0A] := by
        rw [hfed, List.append_assoc]
        rfl
      obtain ⟨rfl, hb⟩ := List.append_inj' hends rfl
      obtain rfl : b = 0x0A := by simpa using hb
      rw [take_knock hnoise rfl, hfed]
      exact iff_of_true rfl (List.suffix_append _ _)
    have hfront : front <+: knocks (whole + 1) := ⟨_, hwhole.symm⟩
    have hknock : handshakeRequest <+: knocks (whole + 1) := ⟨_, (knocks_succ whole).symm⟩
    rcases List.prefix_or_prefix_of_prefix hfront hknock with hfront | ⟨beyond, rfl⟩
    · exact hquiet hfed hfront heq
    · -- a whole one was fed before
      have hne : beyond ≠ [] := by
        rintro rfl
        exact heq (List.append_nil _)
      obtain ⟨beyond, last, rfl⟩ := (List.eq_nil_or_concat beyond).resolve_left hne
      have hends : fed ++ [b] = (noise ++ handshakeRequest ++ beyond) ++ [last] := by
        rw [hfed]
        simp
      obtain ⟨rfl, -⟩ := List.append_inj' hends rfl
      refine absurd ⟨List.suffix_append _ _, ?_⟩ (hspared (noise ++ handshakeRequest)
        (List.prefix_append _ _))
      exact ⟨beyond ++ [b] ++ more, by simp⟩

/-- Once a request byte is fed, no byte is refused for its payload. -/
theorem take_request {left : Bytes} {count : Nat} (hcount : knocked ++ left = knocks count)
    (hwhole : requested ≠ [] → left = [])
    (hrequested : requested <+: (updateRequests image signature).flatMap Request.frame)
    (hpassed : passed <+: knocked) (horder : passed ++ (fed ++ [b]) <+: knocked ++ requested)
    (hlate : ¬ passed ++ (fed ++ [b]) <+: knocked)
    (hspared : ∀ front, front <+: fed → ¬ Surplus passed front knocked) (m : Nor n) :
    (Session.take ⟨m, fedAssembler fed⟩ b).1 ≠ .refused .invalidPayload := by
  obtain ⟨late, rfl⟩ := hpassed
  rw [List.append_assoc, List.prefix_append_right_inj] at horder
  rw [List.prefix_append_right_inj] at hlate
  obtain ⟨sent, hfed⟩ : late <+: fed ++ [b] :=
    (List.prefix_or_prefix_of_prefix horder (List.prefix_append late requested)).resolve_left hlate
  rw [← hfed, List.prefix_append_right_inj] at horder
  have hsent : sent ≠ [] := by
    rintro rfl
    rw [List.append_nil] at hfed
    exact hlate (hfed ▸ List.prefix_rfl)
  have hnone : left = [] := by
    refine hwhole ?_
    rintro rfl
    exact hsent (List.prefix_nil.1 horder)
  rw [hnone, List.append_nil] at hcount
  obtain ⟨noise, whole, hnoise, rfl⟩ := exists_noise hcount
  cases whole with
  | zero =>
    have hbytes : fed ++ [b] = noise ++ sent := by
      rw [← hfed]
      exact congrArg (· ++ sent) (List.append_nil noise)
    exact take_ne_invalidPayload hnoise (horder.trans hrequested) hbytes m
  | succ whole =>
    -- a whole start sequence was fed before
    obtain ⟨sent, last, rfl⟩ := (List.eq_nil_or_concat sent).resolve_left hsent
    rw [List.concat_eq_append, ← List.append_assoc] at hfed
    obtain ⟨rfl, -⟩ := List.append_inj' hfed rfl
    rw [knocks_succ] at hspared
    have hfront : noise ++ handshakeRequest <+: noise ++ (handshakeRequest ++ knocks whole) ++ sent :=
      ⟨knocks whole ++ sent, by simp⟩
    refine absurd ⟨List.suffix_append _ _, ?_⟩ (hspared (noise ++ handshakeRequest) hfront)
    exact ⟨knocks whole, by simp⟩

theorem Fed.take {left : Bytes} {count : Nat} (hcount : knocked ++ left = knocks count)
    (hwhole : requested ≠ [] → left = [])
    (hrequested : requested <+: (updateRequests image signature).flatMap Request.frame)
    (hpassed : passed <+: knocked) (horder : passed ++ (fed ++ [b]) <+: knocked ++ requested)
    {session : Session n frameCapacity} (h : Fed passed fed knocked (.serving session)) :
    Fed passed (fed ++ [b]) knocked (Device.Stage.taken (session.take b)) := by
  have hspared := h.spared (by simp [Device.Stage.refusal?])
  have hassembler := h.assembler session (Or.inl rfl)
  obtain ⟨m, a⟩ := session
  obtain rfl : a = fedAssembler fed := hassembler
  have htake : (Session.take ⟨m, fedAssembler fed⟩ b).1 = .refused .invalidPayload ↔
      Surplus passed (fed ++ [b]) knocked := by
    by_cases hlate : passed ++ (fed ++ [b]) <+: knocked
    · rw [take_late hcount hlate hspared]
      exact (and_iff_left hlate).symm
    · have hne := take_request hcount hwhole hrequested hpassed horder hlate hspared m
      exact iff_of_false hne fun hsurplus => hlate hsurplus.2
  rw [← refusal?_taken] at htake
  refine ⟨?_, htake.1, ?_⟩
  · intro session hstage
    rw [eq_of_taken hstage, assembler_take]
    exact (Assembler.after_concat _ fed b).symm
  · intro hne front hfront
    rcases List.prefix_concat_iff.1 hfront with rfl | hfront
    · exact fun hsurplus => hne (htake.2 hsurplus)
    · exact hspared front hfront

end

/-! ## Whole runs -/

/-- What the device took off the line before its session, what it was fed, and what is still on its
way are all that the host has written, in order; and as long as no request byte was lost, the device
stands to what it was fed as it should. -/
structure Overlaps (image : Image) (signature : Vector UInt8 signatureLen) (events : List Event)
    (s : Exchange n) : Prop where
  order : passed events ++ fed events ++ s.toDevice = knocked events ++ requested events
  wrote : HostWrote (updateRequests image signature) s.host (knocked events) (requested events)
  early : Early s.device → fed events = []
  fed : passed events <+: knocked events →
    Fed (passed events) (fed events) (knocked events) s.device

/-- Before its session the device is fed nothing and refuses nothing, and it begins its session with
an empty assembler. -/
theorem early_step {s t : Device.Stage n Empty} {act : Device.Act Empty} (hearly : Early s)
    (hstep : s.Step act t) :
    fed [.device act] = [] ∧ t.refusal? = none ∧
      ∀ session, t = .serving session ∨ t = .acknowledging session →
        session.assembler = Assembler.empty frameCapacity := by
  cases hstep with
  | turnsOn =>
    refine ⟨rfl, rfl, ?_⟩
    rintro session (heq | heq)
    · cases heq
      rfl
    · cases heq
  | _ => first | exact hearly.elim | exact ⟨rfl, rfl, by simp⟩

/-- Between two bytes of its session the device stands to what it was fed as it did. -/
theorem Fed.step {before fed knocked : Bytes} {s t : Device.Stage n Empty} {act : Device.Act Empty}
    (h : Fed before fed knocked s) (hearly : ¬ Early s) (hserving : ∀ session, s ≠ .serving session)
    (hstep : s.Step act t) : Exchange.fed [.device act] = [] ∧ Fed before fed knocked t := by
  cases hstep with
  | acknowledges =>
    refine ⟨rfl, ?_, h.refused, h.spared⟩
    rintro session (heq | heq)
    · cases heq
      exact h.assembler _ (Or.inr rfl)
    · cases heq
  | reports => exact ⟨rfl, by simp, h.refused, h.spared⟩
  | leaves => exact ⟨rfl, by simp, h.refused, h.spared⟩
  | acknowledgeFails =>
    rename_i e
    exact e.elim
  | reportFails =>
    rename_i e _
    exact e.elim
  | _ => first | exact absurd trivial hearly | exact absurd rfl (hserving _)

variable {image : Image} {signature : Vector UInt8 signatureLen}

theorem Overlaps.host {events : List Event} {s : Exchange n} (h : Overlaps image signature events s)
    {act : Host.Act} {host' : Host.Stage} {rest : Bytes} (hstep : s.host.Step act host') :
    Overlaps image signature (events ++ [.host act])
      ⟨host', s.toDevice ++ act.written, rest, s.device⟩ := by
  have hfits : ∀ r ∈ updateRequests image signature, r.Fits := fun r hr => (mem_updateRequests hr).1
  have hpassed : passed (events ++ [.host act]) = passed events :=
    trace_quiet (passed_concat _ _) rfl
  have hfed : Exchange.fed (events ++ [.host act]) = Exchange.fed events :=
    trace_quiet (fed_concat _ _) rfl
  have hwritten : act.written = knocked [.host act] ++ requested [.host act] := by
    cases act <;> rfl
  have horder := h.order
  rcases h.wrote.knocks_or_requests hstep with hnone | hnone
  · -- nothing but start sequences has been written so far
    rw [hnone, List.append_nil] at horder
    have hbefore : passed events <+: knocked events := by
      rw [← horder, List.append_assoc]
      exact List.prefix_append _ _
    have hall : passed events ++ Exchange.fed events <+: knocked events := ⟨_, horder⟩
    refine ⟨?_, ?_, ?_, ?_⟩
    · rw [hpassed, hfed, knocked_concat, requested_concat, hwritten, hnone, List.nil_append,
        List.append_assoc (knocked events), ← horder]
      simp only [List.append_assoc]
    · rw [knocked_concat, requested_concat]
      exact h.wrote.step hfits hstep
    · rw [hfed]
      exact h.early
    · intro _
      rw [hpassed, hfed, knocked_concat]
      exact (h.fed hbefore).knock hall
  · have hknocked : knocked (events ++ [.host act]) = knocked events := by
      rw [knocked_concat, hnone, List.append_nil]
    refine ⟨?_, ?_, ?_, ?_⟩
    · rw [hpassed, hfed, hknocked, requested_concat, hwritten, hnone, List.nil_append,
        ← List.append_assoc, ← List.append_assoc, horder]
    · rw [knocked_concat, requested_concat]
      exact h.wrote.step hfits hstep
    · rw [hfed]
      exact h.early
    · rw [hpassed, hfed, hknocked]
      exact h.fed

theorem Overlaps.device {events : List Event} {s : Exchange n} (h : Overlaps image signature events s)
    {act : Device.Act Empty} {device' : Device.Stage n Empty} {rest : Bytes}
    (hstep : s.device.Step act device') (hheard : s.toDevice = act.heard ++ rest) :
    Overlaps image signature (events ++ [.device act])
      ⟨s.host, rest, s.toHost ++ act.told, device'⟩ := by
  have hknocked : knocked (events ++ [.device act]) = knocked events :=
    trace_quiet (knocked_concat _ _) rfl
  have hrequested : requested (events ++ [.device act]) = requested events :=
    trace_quiet (requested_concat _ _) rfl
  have horder := h.order
  rw [hheard, heard_eq] at horder
  by_cases hearly : Early s.device
  · obtain ⟨hnone, hrefusal, hassembler⟩ := early_step hearly hstep
    have hfed : Exchange.fed (events ++ [.device act]) = [] := by
      rw [fed_concat, h.early hearly, hnone]
      rfl
    refine ⟨?_, ?_, fun _ => hfed, ?_⟩
    · rw [hfed, hknocked, hrequested, passed_concat, ← horder, h.early hearly, hnone]
      simp only [List.append_nil, List.append_assoc]
    · rw [hknocked, hrequested]
      exact h.wrote
    · intro _
      rw [hfed]
      exact .of_nil hrefusal hassembler
  · obtain ⟨hnone, hlate⟩ := late_step hearly hstep
    have hpassed : passed (events ++ [.device act]) = passed events := by
      rw [passed_concat, hnone, List.append_nil]
    rw [hnone, List.nil_append] at horder
    refine ⟨?_, ?_, fun hearly' => absurd hearly' hlate, ?_⟩
    · rw [hpassed, hknocked, hrequested, fed_concat, ← horder]
      simp only [List.append_assoc]
    · rw [hknocked, hrequested]
      exact h.wrote
    · rw [hpassed, hknocked, fed_concat]
      intro hbefore
      have hcurrent := h.fed hbefore
      by_cases hserving : ∃ session, s.device = .serving session
      · obtain ⟨session, hserving⟩ := hserving
        rw [hserving] at hcurrent hstep
        obtain ⟨b, rfl, rfl⟩ := Device.Stage.eq_taken_of_serving hstep
        obtain ⟨hfront, left, count, hcount, hwhole⟩ := h.wrote.spec
        have hsofar : passed events ++ (Exchange.fed events ++ [b]) <+:
            knocked events ++ requested events := by
          refine ⟨rest, ?_⟩
          rw [← horder]
          simp [Exchange.fed]
        exact hcurrent.take hcount hwhole hfront hbefore hsofar
      · obtain ⟨hquiet, hnext⟩ := hcurrent.step hearly (not_exists.1 hserving) hstep
        rw [hquiet, List.append_nil]
        exact hnext

theorem deaf_spec {s : Device.Stage n Empty} (h : s.Deaf) :
    Early s ∧ s.refusal? = none ∧
      ∀ session, s = .serving session ∨ s = .acknowledging session →
        session.assembler = Assembler.empty frameCapacity := by
  cases s <;> first | exact h.elim | exact ⟨trivial, rfl, by simp⟩

theorem Overlaps.loses {events : List Event} {s : Exchange n} (h : Overlaps image signature events s)
    {b : UInt8} {rest : Bytes} (hdeaf : s.device.Deaf) (hlost : s.toDevice = b :: rest) :
    Overlaps image signature (events ++ [.loses b]) ⟨s.host, rest, s.toHost, s.device⟩ := by
  obtain ⟨hearly, hrefusal, hassembler⟩ := deaf_spec hdeaf
  have hnone := h.early hearly
  have hfed : Exchange.fed (events ++ [.loses b]) = [] := by
    rw [fed_concat, hnone]
    rfl
  have hknocked : knocked (events ++ [.loses b]) = knocked events :=
    trace_quiet (knocked_concat _ _) rfl
  have hrequested : requested (events ++ [.loses b]) = requested events :=
    trace_quiet (requested_concat _ _) rfl
  refine ⟨?_, ?_, fun _ => hfed, ?_⟩
  · rw [hfed, hknocked, hrequested, ← h.order, passed_concat, hnone, hlost]
    simp [passed]
  · rw [hknocked, hrequested]
    exact h.wrote
  · intro _
    rw [hfed]
    exact .of_nil hrefusal hassembler

theorem Overlaps.step {events : List Event} {s t : Exchange n} (h : Overlaps image signature events s)
    {event : Event} (hstep : Step s event t) :
    Overlaps image signature (events ++ [event]) t := by
  cases hstep with
  | host hact hheard => exact h.host hact
  | device hact hheard => exact h.device hact hheard
  | loses hdeaf hlost => exact h.loses hdeaf hlost

/-- An exchange in which the host is about to knock and the device to listen. -/
def greeting (image : Image) (signature : Vector UInt8 signatureLen) (attempts : Nat) (m : Nor n) :
    Exchange n :=
  ⟨.knock (updateRequests image signature) attempts, [], [], .asleep m⟩

theorem overlaps_of_path {attempts : Nat} {m : Nor n} {events : List Event} {s : Exchange n}
    (hpath : Path Step (greeting image signature attempts m) events s) :
    Overlaps image signature events s := by
  refine hpath.invariant ?_ fun _ _ _ _ hsofar hstep => hsofar.step hstep
  have hwrote := HostWrote.knock (updateRequests image signature) attempts 0
  exact ⟨rfl, hwrote, fun _ => rfl, fun _ => .of_nil rfl (by simp [greeting])⟩

/-- What the session is fed is what the host has written behind the bytes that were taken off the line
before it. These are request bytes alone, now and later, exactly if every byte of a start sequence was
taken off by then. And as long as no request byte was, the session is refused for its payload exactly
if it was fed the end of the start sequences and the last of them whole. The stages that the two sides
go through are those of `handshake` and `flash` on any line and of `powerOn` on any script. -/
theorem surplus_knock_ends_session_iff (image : Image) (signature : Vector UInt8 signatureLen)
    (attempts : Nat) (m : Nor n) {events : List Event} {s : Exchange n}
    (hpath : Path Step (greeting image signature attempts m) events s) :
    passed events ++ fed events ++ s.toDevice = knocked events ++ requested events ∧
      (fed events ++ s.toDevice <:+ requested events ↔
        (knocked events).length ≤ (passed events).length) ∧
      (passed events <+: knocked events →
        (s.device.refusal? = some .invalidPayload ↔
          handshakeRequest <:+ fed events ∧ passed events ++ fed events <+: knocked events)) ∧
      (Realizes (.knock (updateRequests image signature) attempts)
        (handshake attempts >>= fun _ => flash image signature) fun _ => .done (.ok ())) ∧
      ∀ (check : Check) (key : Vector UInt8 33) (link : Script),
        Resets (.asleep m) link (powerOn check key ⟨m, link⟩) ∨
          ∃ link', Device.Goes (.asleep m) link (.booting m) link' ∧
            powerOn check key ⟨m, link⟩ = verifyAndBoot check key ⟨m, link'⟩ := by
  have h := overlaps_of_path hpath
  have horder := h.order
  rw [List.append_assoc] at horder
  refine ⟨h.order, ?_, ?_, realizes_update attempts image signature,
    fun check key link => goes_powerOn check key m link⟩
  · constructor
    · intro hsuffix
      have hlen := congrArg List.length horder
      have hle := hsuffix.length_le
      simp only [List.length_append] at hlen hle
      omega
    · intro hle
      obtain ⟨skipped, hpassed⟩ : knocked events <+: passed events :=
        List.prefix_of_prefix_length_le ⟨_, rfl⟩ ⟨_, horder⟩ hle
      rw [← hpassed, List.append_assoc] at horder
      exact ⟨skipped, List.append_cancel_left horder⟩
  · intro hbefore
    have hfed := h.fed hbefore
    constructor
    · exact hfed.refused
    · intro hsurplus
      by_contra hne
      exact hfed.spared hne _ List.prefix_rfl hsurplus

/-! ## A start sequence that comes late -/

/-- The host is not answered in time and knocks a second time while the device erases. -/
def knocksTwice : List Event :=
  [.device .works] ++ handshakeRequest.map (fun b => .host (.knocks b)) ++ [.host .settles] ++
    handshakeRequest.map (fun b => .device (.polls (some b))) ++ [.host .timesOut] ++
    handshakeRequest.map (fun b => .host (.knocks b)) ++ [.host .settles]

/-- The answer reaches the host before its second start sequence reaches the device. -/
def answersFirst : List Event :=
  [.device .works] ++ handshakeResponse.map (fun b => .device (.tells b)) ++ [.device .works] ++
    handshakeResponse.map fun b => .host (.hears b)

/-- Then the second start sequence reaches the session. -/
def secondArrives : List Event :=
  handshakeRequest.map fun b => .device (.receives b)

theorem path_knocks {bs toDevice toHost : Bytes} {attempts : Nat} {rest : List Request}
    {device : Device.Stage n Empty} :
    Path Step ⟨.knocking bs attempts rest, toDevice, toHost, device⟩
      (bs.map fun b => .host (.knocks b))
      ⟨.knocking [] attempts rest, toDevice ++ bs, toHost, device⟩ := by
  induction bs generalizing toDevice with
  | nil =>
    rw [List.append_nil]
    exact .nil
  | cons b bs ih =>
    rw [List.append_cons toDevice]
    exact .cons (.host .knocks rfl) ih

theorem path_answers {bs toDevice toHost : Bytes} {host : Host.Stage} {m : Nor n} :
    Path Step ⟨host, toDevice, toHost, .answering bs m⟩ (bs.map fun b => .device (.tells b))
      ⟨host, toDevice, toHost ++ bs, .answering [] m⟩ := by
  induction bs generalizing toHost with
  | nil =>
    rw [List.append_nil]
    exact .nil
  | cons b bs ih =>
    rw [List.append_cons toHost]
    exact .cons (.device .answers rfl) ih

section
variable (image : Image) (signature : Vector UInt8 signatureLen)

theorem path_knocksTwice (m : Nor n) :
    Path Step (greeting image signature 2 m) knocksTwice
      ⟨.expecting [] 0 (updateRequests image signature), handshakeRequest, [], .erasing m⟩ := by
  unfold greeting
  generalize updateRequests image signature = rs
  have hwake : Path Step ⟨.knock rs 2, [], [], .asleep m⟩ [.device .works]
      ⟨.knocking handshakeRequest 1 rs, [], [], .listening pollLimit 0 m⟩ :=
    .single (.device .wakes rfl)
  have hknock : Path Step ⟨.knocking [] 1 rs, handshakeRequest, [], .listening pollLimit 0 m⟩
      [.host .settles] ⟨.expecting [] 1 rs, handshakeRequest, [], .listening pollLimit 0 m⟩ :=
    .single (.host .knocked rfl)
  have hpolls : Path Step ⟨.expecting [] 1 rs, handshakeRequest, [], .listening pollLimit 0 m⟩
      (handshakeRequest.map fun b => .device (.polls (some b)))
      ⟨.expecting [] 1 rs, [], [], .erasing m⟩ :=
    .cons (.device (.pollsByte (by decide)) rfl) <|
      .cons (.device (.pollsByte (by decide)) rfl) <|
      .cons (.device (.pollsByte (by decide)) rfl) <|
      .cons (.device (.pollsByte (by decide)) rfl) <|
      .single (.device (.pollsRequest (by decide)) rfl)
  have hwaits : Path Step ⟨.expecting [] 1 rs, [], [], .erasing m⟩ [.host .timesOut]
      ⟨.knocking handshakeRequest 0 rs, [], [], .erasing m⟩ := .single (.host .knocksAgain rfl)
  have hagain : Path Step ⟨.knocking [] 0 rs, handshakeRequest, [], .erasing m⟩ [.host .settles]
      ⟨.expecting [] 0 rs, handshakeRequest, [], .erasing m⟩ := .single (.host .knocked rfl)
  exact (((((hwake.append path_knocks).append hknock).append hpolls).append hwaits).append
    path_knocks).append hagain

theorem path_answersFirst {m m' : Nor n} (herase : (eraseBelow loaderBase).run m = (.ok (), m'))
    (rest : List Request) :
    Path Step ⟨.expecting [] 0 rest, handshakeRequest, [], .erasing m⟩ answersFirst
      ⟨.before rest, handshakeRequest, [], .serving ⟨m', Assembler.empty frameCapacity⟩⟩ := by
  have herased : Path Step ⟨.expecting [] 0 rest, handshakeRequest, [], .erasing m⟩
      [.device .works] ⟨.expecting [] 0 rest, handshakeRequest, [], .answering handshakeResponse m'⟩ :=
    .single (.device (.erases herase) rfl)
  have hturns : Path Step
      ⟨.expecting [] 0 rest, handshakeRequest, [] ++ handshakeResponse, .answering [] m'⟩
      [.device .works] ⟨.expecting [] 0 rest, handshakeRequest, handshakeResponse,
        .serving ⟨m', Assembler.empty frameCapacity⟩⟩ := .single (.device .turnsOn rfl)
  have hhears : Path Step ⟨.expecting [] 0 rest, handshakeRequest, handshakeResponse,
        .serving ⟨m', Assembler.empty frameCapacity⟩⟩
      (handshakeResponse.map fun b => .host (.hears b))
      ⟨.before rest, handshakeRequest, [], .serving ⟨m', Assembler.empty frameCapacity⟩⟩ :=
    .cons (.host (.hearsMore rfl) rfl) <| .cons (.host (.hearsMore rfl) rfl) <|
      .cons (.host (.hearsMore rfl) rfl) <| .single (.host (.hearsAnswer rfl) rfl)
  exact ((herased.append path_answers).append hturns).append hhears

theorem path_secondArrives (m : Nor n) (host : Host.Stage) :
    Path Step ⟨host, handshakeRequest, [], .serving ⟨m, Assembler.empty frameCapacity⟩⟩ secondArrives
      ⟨host, [], [], .refusing .invalidPayload ⟨m, fedAssembler handshakeRequest⟩⟩ := by
  have hnoise : Noise [] := fun _ hb => absurd hb List.not_mem_nil
  have hsplit : wrap knockContent = [] ++ (handshakeRequest.dropLast ++ [0x0A]) := rfl
  have hmost := path_receives (a := Assembler.empty frameCapacity) rfl
    (show knockContent.length + 1 < frameCapacity by decide) hsplit m host []
  have hlast := take_knock hnoise (show handshakeRequest = handshakeRequest.dropLast ++ [0x0A] from rfl) m
  exact hmost.append (.single (.device (.refuses hlast) rfl))

end

/-- A handshake that has succeeded does not keep the second start sequence from the session: the
session is fed it whole before any request byte has been written, and ends. -/
theorem second_knock_ends_session :
    ∃ s t : Exchange flashSize,
      Path Step (greeting (Image.ofByte 0x12) (Vector.replicate 64 0) 2 (Nor.blank flashSize))
        (knocksTwice ++ answersFirst) s ∧
      s.host = .before (updateRequests (Image.ofByte 0x12) (Vector.replicate 64 0)) ∧
      Path Step s secondArrives t ∧
      requested (knocksTwice ++ answersFirst ++ secondArrives) = [] ∧
      fed (knocksTwice ++ answersFirst ++ secondArrives) = handshakeRequest ∧
      t.device.refusal? = some .invalidPayload := by
  have herase := run_eraseBelow_cleared (show (Nor.blank flashSize).power = none from rfl)
  exact ⟨_, _, (path_knocksTwice _ _ _).append (path_answersFirst herase _), rfl,
    path_secondArrives _ _, rfl, rfl, rfl⟩

/-- The session of the run with two start sequences is refused for its payload because of the
second. -/
theorem second_knock_is_surplus :
    ∃ s : Exchange flashSize,
      Path Step (greeting (Image.ofByte 0x12) (Vector.replicate 64 0) 2 (Nor.blank flashSize))
        (knocksTwice ++ answersFirst ++ secondArrives) s ∧
      passed (knocksTwice ++ answersFirst ++ secondArrives) <+:
        knocked (knocksTwice ++ answersFirst ++ secondArrives) ∧
      ¬ fed (knocksTwice ++ answersFirst ++ secondArrives) ++ s.toDevice <:+
        requested (knocksTwice ++ answersFirst ++ secondArrives) ∧
      s.device.refusal? = some .invalidPayload := by
  have herase := run_eraseBelow_cleared (show (Nor.blank flashSize).power = none from rfl)
  have hpath := ((path_knocksTwice (Image.ofByte 0x12) (Vector.replicate 64 0)
    (Nor.blank flashSize)).append (path_answersFirst herase _)).append (path_secondArrives _ _)
  obtain ⟨-, hrequests, hrefused, -⟩ := surplus_knock_ends_session_iff _ _ _ _ hpath
  have hbefore : passed (knocksTwice ++ answersFirst ++ secondArrives) <+:
      knocked (knocksTwice ++ answersFirst ++ secondArrives) := ⟨handshakeRequest, rfl⟩
  refine ⟨_, hpath, hbefore, fun hsuffix => ?_, ?_⟩
  · exact absurd (hrequests.1 hsuffix) (by decide)
  · exact (hrefused hbefore).2 ⟨List.suffix_rfl, List.prefix_rfl⟩

end SignedBoot.Exchange
