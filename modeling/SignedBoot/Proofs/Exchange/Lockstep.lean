import SignedBoot.Proofs.Device.InterruptedUpdate
import SignedBoot.Proofs.Exchange.Resumption

/-!
# An update in lockstep

While no wait runs out, the host is never more than one request ahead of the device. At any moment
one request is under way: part of it has been received, part is on its way, part is still to be sent;
or it has been executed and its acknowledgement is being told or is on its way. `InStep` lists these
situations and every step goes from one of them to one of them. So the device sees the requests of the
update in order and refuses none. The word to stop is not acknowledged, but it is only sent when
everything before it has been, and by then the whole image is in memory.
-/

namespace SignedBoot

open Flash Layout Wire

variable {n : Nat}

/-! ## Requests byte by byte -/

namespace Device

/-- The memory after some requests have been executed. -/
def reached (m : Nor n) (done : List Request) : Nor n :=
  m.after (programChanges (done.flatMap requestWrites))

theorem reached_concat (m : Nor n) (done : List Request) (r : Request) :
    reached m (done ++ [r]) = (reached m done).after (programChanges (requestWrites r)) := by
  unfold reached
  rw [List.flatMap_append, List.flatMap_singleton, programChanges_append, Nor.after_append]

section
variable {a : Assembler frameCapacity} (ha : a.escaped = false) {r : Request} (hfits : r.Fits)
  (hbytes : r.HasBytes) {before : Bytes} {b : UInt8} (hframe : r.frame = before ++ [b])
include ha hfits hbytes hframe

/-- The last byte of a request that programs has it executed, if the power lasts. -/
theorem take_last {m : Nor n} (hn : loaderBase ≤ n) (hdenied : ¬ Denied r)
    (hproceed : reaction r = .proceed) (hpower : m.power.Covers (requestWrites r).length) :
    Session.take ⟨m, a.after before⟩ b =
      (.executed, ⟨m.after (programChanges (requestWrites r)), a.after r.frame⟩) := by
  have hfeed := Assembler.feed_last_of_wrap ha (Request.length_content_lt hfits) hframe
  have hbounds : ∀ w ∈ requestWrites r, w.1 + w.2.length ≤ n := fun w hw =>
    Nat.le_trans (le_of_mem_requestWrites hdenied hw) hn
  have hpaid : m.power.Covers (programChanges (n := n) (requestWrites r)).length := by
    rw [programChanges, List.length_map]
    exact hpower
  unfold Session.take
  rw [hfeed]
  simp only [handleFrame_content hfits hbytes, run_execute hdenied hbounds, if_pos hpower, hproceed,
    Quota.take_of_covers hpaid]
  rfl

end

theorem take_stop {a : Assembler frameCapacity} (ha : a.escaped = false) {before : Bytes} {b : UInt8}
    (hframe : Request.stop.frame = before ++ [b]) (m : Nor n) :
    Session.take ⟨m, a.after before⟩ b = (.stopped, ⟨m, a.after Request.stop.frame⟩) := by
  have hfits : Request.stop.Fits := trivial
  have hfeed := Assembler.feed_last_of_wrap ha (Request.length_content_lt hfits) hframe
  unfold Session.take
  rw [hfeed]
  simp only [handleFrame_content hfits trivial]
  rfl

end Device

namespace Exchange

open Host Device

variable {image : Image} {signature : Vector UInt8 signatureLen}

/-! ## What stays true -/

/-- Where the host is while `left` of the last request is still to be sent. -/
inductive HostAt (rest : List Request) : Bytes → Host.Stage → Prop where
  | sending (left : Bytes) : HostAt rest left (.sending left rest)
  | awaiting (h : rest ≠ []) : HostAt rest [] (.awaiting rest)
  | finished (h : rest = []) : HostAt rest [] (.done (.ok ()))

/-- The situations of an update in which no wait has run out, with the bytes of requests written so
far and the number of acknowledgements heard. -/
inductive InStep (m : Nor n) (requests : List Request) : Bytes → Nat → Exchange n → Prop where
  /-- Of the next request the device has received `before`, `transit` is on its way, and `left` is
  still to be sent. -/
  | underWay {done rest : List Request} {r : Request} {before transit left : Bytes}
    {a : Assembler frameCapacity} {host : Host.Stage} (hrequests : requests = done ++ r :: rest)
    (hframe : r.frame = before ++ transit ++ left) (hmore : transit ++ left ≠ [])
    (ha : a.escaped = false) (hhost : HostAt rest left host) :
    InStep m requests (done.flatMap Request.frame ++ (before ++ transit)) done.length
      ⟨host, transit, [], .serving ⟨reached m done, a.after before⟩⟩
  /-- The request has been executed. -/
  | executed {done rest : List Request} {r : Request} {a : Assembler frameCapacity}
    {host : Host.Stage} (hrequests : requests = done ++ r :: rest) (hrest : rest ≠ [])
    (ha : a.escaped = false) (hhost : HostAt rest [] host) :
    InStep m requests (done.flatMap Request.frame ++ r.frame) done.length
      ⟨host, [], [], .acknowledging ⟨reached m (done ++ [r]), a⟩⟩
  /-- Its acknowledgement is on its way. -/
  | answered {done rest : List Request} {r : Request} {a : Assembler frameCapacity}
    {host : Host.Stage} (hrequests : requests = done ++ r :: rest) (hrest : rest ≠ [])
    (ha : a.escaped = false) (hhost : HostAt rest [] host) :
    InStep m requests (done.flatMap Request.frame ++ r.frame) done.length
      ⟨host, [], [Status.ack.toByte], .serving ⟨reached m (done ++ [r]), a⟩⟩
  /-- The word to stop has been received. -/
  | stopped {done : List Request} {r : Request} {host : Host.Stage}
    (hrequests : requests = done ++ [r]) (hhost : HostAt [] [] host) :
    InStep m requests (done.flatMap Request.frame ++ r.frame) done.length
      ⟨host, [], [], .reset (.sessionOver .stopped) (reached m done)⟩

section
variable {done rest : List Request} {r : Request}
  (h : updateRequests image signature = done ++ r :: rest)
include h

/-- The last request of an update is the word to stop, and before it comes all that programs. -/
theorem eq_stop_of_last (hrest : rest = []) : r = .stop ∧ done = programRequests image signature := by
  rw [hrest] at h
  obtain ⟨hdone, hlast⟩ := List.append_inj' h rfl
  exact ⟨(List.cons.inj hlast).1.symm, hdone.symm⟩

/-- Every other request is one of those that program, and so are all before it. -/
theorem exists_of_not_last (hrest : rest ≠ []) :
    ∃ tail, programRequests image signature = done ++ r :: tail := by
  obtain ⟨tail, last, rfl⟩ := (List.eq_nil_or_concat rest).resolve_left hrest
  rw [List.concat_eq_append] at h
  have hsplit : programRequests image signature ++ [.stop] = (done ++ r :: tail) ++ [last] := by
    rw [List.append_assoc]
    exact h
  exact ⟨tail, (List.append_inj' hsplit rfl).1⟩

theorem mem_of_split : r ∈ updateRequests image signature := by
  rw [h]
  exact List.mem_append_right _ List.mem_cons_self

/-- The power lasts for every request that programs, when its turn comes. -/
theorem covers_reached {m : Nor n} (hpower : m.power.Covers (updateWrites image signature).length)
    (hrest : rest ≠ []) : (reached m done).power.Covers (requestWrites r).length := by
  obtain ⟨tail, htail⟩ := exists_of_not_last h hrest
  unfold updateWrites at hpower
  rw [htail, List.flatMap_append, List.flatMap_cons, List.length_append, Quota.covers_add,
    List.length_append, Quota.covers_add] at hpower
  have huse : (reached m done).power = m.power.use (done.flatMap requestWrites).length := by
    unfold reached
    rw [Nor.after, programChanges, List.length_map]
  rw [huse]
  exact hpower.2.1

end

theorem before_eq_sending {done rest : List Request} {r q : Request}
    (h : updateRequests image signature = done ++ r :: q :: rest) :
    Host.Stage.before (q :: rest) = .sending q.frame rest := by
  have hmem : q ∈ updateRequests image signature := by
    rw [h]
    exact List.mem_append_right _ (List.mem_cons_of_mem _ List.mem_cons_self)
  exact Host.Stage.before_cons (mem_updateRequests hmem).1 rest

/-- A host that has sent all of a request turns to what comes then, and does nothing else before it
hears something or gives up. -/
theorem HostAt.step {rest : List Request} {left : Bytes} {host host' : Host.Stage} {act : Host.Act}
    (h : HostAt rest left host) (hstep : host.Step act host') :
    (∃ b more, left = b :: more ∧ act = .sends b ∧ host' = .sending more rest) ∨
      (left = [] ∧ act = .settles ∧ HostAt rest [] host') ∨
      (left = [] ∧ rest ≠ [] ∧ host = .awaiting rest ∧ ((∃ b, act = .hears b) ∨ act = .timesOut)) := by
  cases h with
  | sending left =>
    cases hstep with
    | sends => exact Or.inl ⟨_, _, rfl, rfl, rfl⟩
    | sent hrest => exact Or.inr (Or.inl ⟨rfl, rfl, .awaiting hrest⟩)
    | finishes => exact Or.inr (Or.inl ⟨rfl, rfl, .finished rfl⟩)
  | awaiting hrest =>
    refine Or.inr (Or.inr ⟨rfl, hrest, rfl, ?_⟩)
    cases hstep with
    | hearsNoise => exact Or.inl ⟨_, rfl⟩
    | hearsAck => exact Or.inl ⟨_, rfl⟩
    | hearsRefusal => exact Or.inl ⟨_, rfl⟩
    | givesUp => exact Or.inr rfl
  | finished => cases hstep

theorem InStep.settle {m : Nor n} {requests : List Request} {written : Bytes} {heard : Nat}
    {host : Host.Stage} {toDevice toHost : Bytes} {device : Device.Stage n Empty}
    (h : InStep m requests written heard ⟨host, toDevice, toHost, device⟩) :
    InStep m requests (written ++ requested [.host .settles]) (heard + acks [.host .settles])
      ⟨host, toDevice ++ Host.Act.settles.written, toHost, device⟩ := by
  have hwritten : requested [.host .settles] = [] := rfl
  have hheard : acks [.host .settles] = 0 := rfl
  have hsent : Host.Act.settles.written = [] := rfl
  rw [hwritten, hheard, hsent, List.append_nil, List.append_nil, Nat.add_zero]
  exact h

theorem InStep.host {m : Nor n} {written : Bytes} {heard : Nat} {s : Exchange n}
    (h : InStep m (updateRequests image signature) written heard s) {act : Host.Act}
    {host' : Host.Stage} {rest : Bytes} (hstep : s.host.Step act host')
    (hheard : s.toHost = act.heard ++ rest) (hwait : act ≠ .timesOut) :
    InStep m (updateRequests image signature) (written ++ requested [.host act])
      (heard + acks [.host act]) ⟨host', s.toDevice ++ act.written, rest, s.device⟩ := by
  cases h with
  | @underWay done requests r before transit left a host hrequests hframe hmore ha hhost =>
    obtain ⟨b, more, rfl, rfl, rfl⟩ | ⟨rfl, rfl, hhost⟩ | ⟨-, -, -, ⟨b, rfl⟩ | rfl⟩ :=
      hhost.step hstep
    · obtain rfl : rest = [] := hheard.symm
      have hnext : InStep m (updateRequests image signature)
          (done.flatMap Request.frame ++ (before ++ (transit ++ [b]))) done.length
          ⟨.sending more requests, transit ++ [b], [], .serving ⟨reached m done, a.after before⟩⟩ :=
        .underWay hrequests (by rw [hframe]; simp) (by simp) ha (.sending more)
      rw [← List.append_assoc before, ← List.append_assoc] at hnext
      exact hnext
    · obtain rfl : rest = [] := hheard.symm
      exact (InStep.underWay hrequests hframe hmore ha hhost).settle
    · cases hheard
    · exact absurd rfl hwait
  | executed hrequests hrest ha hhost =>
    obtain ⟨b, more, hnil, -⟩ | ⟨-, rfl, hhost⟩ | ⟨-, -, -, ⟨b, rfl⟩ | rfl⟩ := hhost.step hstep
    · cases hnil
    · obtain rfl : rest = [] := hheard.symm
      exact (InStep.executed hrequests hrest ha hhost).settle
    · cases hheard
    · exact absurd rfl hwait
  | @answered done requests r a host hrequests hrest ha hhost =>
    obtain ⟨b, more, hnil, -⟩ | ⟨-, rfl, hhost⟩ | ⟨-, -, rfl, ⟨b, rfl⟩ | rfl⟩ := hhost.step hstep
    · cases hnil
    · obtain rfl : rest = [Status.ack.toByte] := hheard.symm
      exact (InStep.answered hrequests hrest ha hhost).settle
    · -- the host goes on to the next request
      obtain ⟨rfl, hnone⟩ := List.cons.inj hheard
      obtain rfl : rest = [] := hnone.symm
      obtain ⟨q, requests, rfl⟩ := List.exists_cons_of_ne_nil hrest
      have hreply : reply? Status.ack.toByte = some (.ok ()) := rfl
      have hnext : InStep m (updateRequests image signature)
          ((done ++ [r]).flatMap Request.frame ++ ([] ++ [])) (done ++ [r]).length
          ⟨.sending q.frame requests, [], [], .serving ⟨reached m (done ++ [r]), a.after []⟩⟩ :=
        .underWay (by rw [hrequests]; simp) rfl (by simp) ha (.sending _)
      rw [List.flatMap_append, List.flatMap_singleton, List.append_nil, List.append_nil,
        List.length_append] at hnext
      cases hstep with
      | hearsNoise hnoise => cases hreply.symm.trans hnoise
      | hearsRefusal hrefusal => cases hreply.symm.trans hrefusal
      | hearsAck =>
        rw [before_eq_sending hrequests]
        have hwritten : requested [.host (.hears Status.ack.toByte)] = [] := rfl
        rw [hwritten, List.append_nil]
        exact hnext
    · exact absurd rfl hwait
  | stopped hrequests hhost =>
    obtain ⟨b, more, hnil, -⟩ | ⟨-, rfl, hhost⟩ | ⟨-, hrest, -⟩ := hhost.step hstep
    · cases hnil
    · obtain rfl : rest = [] := hheard.symm
      exact (InStep.stopped hrequests hhost).settle
    · exact absurd rfl hrest

theorem InStep.device {m : Nor n} (hn : loaderBase ≤ n)
    (hpower : m.power.Covers (updateWrites image signature).length) {written : Bytes} {heard : Nat}
    {s : Exchange n} (h : InStep m (updateRequests image signature) written heard s)
    {act : Device.Act Empty} {device' : Device.Stage n Empty} {rest : Bytes}
    (hstep : s.device.Step act device') (hheard : s.toDevice = act.heard ++ rest) :
    InStep m (updateRequests image signature) written heard
      ⟨s.host, rest, s.toHost ++ act.told, device'⟩ := by
  cases h with
  | @underWay done requests r before transit left a host hrequests hframe hmore ha hhost =>
    obtain ⟨hfits, hbytes⟩ := mem_updateRequests (mem_of_split hrequests)
    obtain ⟨b, rfl, rfl⟩ := Device.Stage.eq_taken_of_serving hstep
    obtain rfl : transit = b :: rest := hheard
    have hsplit : r.frame = before ++ b :: (rest ++ left) := by
      rw [hframe]
      simp
    by_cases hlast : rest ++ left = []
    · -- the request is complete
      obtain ⟨rfl, rfl⟩ := List.append_eq_nil_iff.1 hlast
      rw [hlast] at hsplit
      rw [← hsplit]
      by_cases hrest : requests = []
      · obtain ⟨rfl, -⟩ := eq_stop_of_last hrequests hrest
        obtain rfl := hrest
        simp only [take_stop ha hsplit]
        exact .stopped hrequests hhost
      · obtain ⟨tail, htail⟩ := exists_of_not_last hrequests hrest
        have hmem : r ∈ programRequests image signature := by
          rw [htail]
          exact List.mem_append_right _ List.mem_cons_self
        obtain ⟨-, -, hdenied, hproceed⟩ := mem_programRequests hmem
        have hcovers := covers_reached hrequests hpower hrest
        obtain ⟨-, -, hidle⟩ := Assembler.feed_wrap ha (Request.length_content_lt hfits)
        simp only [take_last ha hfits hbytes hsplit hn hdenied hproceed hcovers, ← reached_concat]
        exact .executed hrequests hrest hidle.2 hhost
    · simp only [take_in_wrap ha (Request.length_content_lt hfits) hsplit hlast]
      have hnext : InStep m (updateRequests image signature)
          (done.flatMap Request.frame ++ (before ++ [b] ++ rest)) done.length
          ⟨host, rest, [], .serving ⟨reached m done, a.after (before ++ [b])⟩⟩ :=
        .underWay hrequests (by rw [hframe]; simp) hlast ha hhost
      rw [List.append_assoc before] at hnext
      exact hnext
  | executed hrequests hrest ha hhost =>
    cases hstep with
    | acknowledges =>
      obtain rfl : rest = [] := hheard.symm
      exact .answered hrequests hrest ha hhost
    | @acknowledgeFails s e => exact e.elim
  | answered hrequests hrest ha hhost =>
    obtain ⟨b, rfl, -⟩ := Device.Stage.eq_taken_of_serving hstep
    cases hheard
  | stopped hrequests hhost => cases hstep

/-- A step in which no wait runs out keeps the update in step. -/
theorem InStep.step {m : Nor n} (hn : loaderBase ≤ n)
    (hpower : m.power.Covers (updateWrites image signature).length) {written : Bytes} {heard : Nat}
    {s t : Exchange n} {event : Event}
    (h : InStep m (updateRequests image signature) written heard s) (hstep : Step s event t)
    (hwait : event ≠ .host .timesOut) :
    InStep m (updateRequests image signature) (written ++ requested [event]) (heard + acks [event])
      t := by
  cases hstep with
  | host hact hheard => exact h.host hact hheard fun hwaits => hwait (congrArg _ hwaits)
  | device hact hheard =>
    have hnext := h.device hn hpower hact hheard
    rw [← List.append_nil written] at hnext
    exact hnext
  | loses hdeaf hlost => cases h <;> exact hdeaf.elim

/-! ## What follows from it -/

section
variable {m : Nor n} {written : Bytes} {heard : Nat} {s : Exchange n}
  (h : InStep m (updateRequests image signature) written heard s)
include h

/-- Nothing is written of a request before all but one of those ahead of it are acknowledged. -/
theorem InStep.written_prefix :
    written <+: ((updateRequests image signature).take (heard + 1)).flatMap Request.frame := by
  have hfront : ∀ {done rest : List Request} {r : Request},
      updateRequests image signature = done ++ r :: rest →
      ((updateRequests image signature).take (done.length + 1)).flatMap Request.frame =
        done.flatMap Request.frame ++ r.frame := by
    intro done rest r hrequests
    rw [hrequests, List.append_cons, List.take_left' (by simp), List.flatMap_append,
      List.flatMap_singleton]
  cases h with
  | underWay hrequests hframe hmore ha hhost =>
    rw [hfront hrequests, hframe, List.prefix_append_right_inj]
    exact List.prefix_append _ _
  | executed hrequests hrest ha hhost =>
    exact (hfront hrequests) ▸ List.prefix_rfl
  | answered hrequests hrest ha hhost =>
    exact (hfront hrequests) ▸ List.prefix_rfl
  | stopped hrequests hhost =>
    exact (hfront hrequests) ▸ List.prefix_rfl

theorem InStep.refusal?_eq_none : s.device.refusal? = none := by
  cases h <;> rfl

theorem InStep.host_ne_error (e : Failure) : s.host ≠ .done (.error e) := by
  have hat : ∀ {rest : List Request} {left : Bytes} {host : Host.Stage}, HostAt rest left host →
      host ≠ .done (.error e) := by
    intro rest left host hhost
    cases hhost <;> simp
  cases h with
  | underWay hrequests hframe hmore ha hhost => exact hat hhost
  | executed hrequests hrest ha hhost => exact hat hhost
  | answered hrequests hrest ha hhost => exact hat hhost
  | stopped hrequests hhost => exact hat hhost

/-- When the host is done, all that programs has been executed. -/
theorem InStep.flash_of_done (hdone : s.host = .done (.ok ())) :
    s.device.flash = reached m (programRequests image signature) := by
  have hlast : ∀ {rest : List Request} {left : Bytes} {host : Host.Stage}, HostAt rest left host →
      host = .done (.ok ()) → rest = [] := by
    rintro rest left host (_ | _ | hrest) heq
    · cases heq
    · cases heq
    · exact hrest
  cases h with
  | underWay hrequests hframe hmore ha hhost =>
    obtain ⟨-, rfl⟩ := eq_stop_of_last hrequests (hlast hhost hdone)
    rfl
  | executed hrequests hrest ha hhost => exact absurd (hlast hhost hdone) hrest
  | answered hrequests hrest ha hhost => exact absurd (hlast hhost hdone) hrest
  | stopped hrequests hhost =>
    obtain ⟨-, rfl⟩ := eq_stop_of_last hrequests rfl
    rfl

end

/-- An exchange in which the device is about to serve a session and the host to send an update. -/
def opening (image : Image) (signature : Vector UInt8 signatureLen) (m : Nor n)
    (a : Assembler frameCapacity) : Exchange n :=
  ⟨.before (updateRequests image signature), [], [], .serving ⟨m, a⟩⟩

theorem inStep_opening (image : Image) (signature : Vector UInt8 signatureLen) (m : Nor n)
    {a : Assembler frameCapacity} (ha : a.escaped = false) :
    InStep m (updateRequests image signature) [] 0 (opening image signature m a) := by
  obtain ⟨r, rest, hrequests⟩ := List.exists_cons_of_ne_nil
    (List.append_ne_nil_of_right_ne_nil (programRequests image signature) (List.cons_ne_nil .stop []))
  have hupdate : updateRequests image signature = [] ++ r :: rest := hrequests
  have hbefore : Host.Stage.before (updateRequests image signature) = .sending r.frame rest := by
    rw [hupdate, List.nil_append]
    exact Host.Stage.before_cons (mem_updateRequests (mem_of_split hupdate)).1 rest
  have hstart : InStep m (updateRequests image signature) ([] ++ ([] ++ [])) 0
      ⟨.sending r.frame rest, [], [], .serving ⟨reached m [], a.after []⟩⟩ :=
    .underWay hupdate rfl (by simp) ha (.sending r.frame)
  have hreached : reached m [] = m := m.after_nil
  rw [hreached] at hstart
  unfold opening
  rw [hbefore]
  exact hstart

theorem inStep_of_path {m : Nor n} (hn : loaderBase ≤ n)
    (hpower : m.power.Covers (updateWrites image signature).length) {a : Assembler frameCapacity}
    (ha : a.escaped = false) {events : List Event} {s : Exchange n}
    (hpath : Path Step (opening image signature m a) events s)
    (hwaits : .host .timesOut ∉ events) :
    InStep m (updateRequests image signature) (requested events) (acks events) s := by
  induction hpath with
  | nil => exact inStep_opening image signature m ha
  | @snoc events s t event _ hstep ih =>
    rw [List.mem_append, List.mem_singleton, not_or] at hwaits
    rw [requested_concat, acks_concat]
    exact (ih hwaits.1).step hn hpower hstep (Ne.symm hwaits.2)

/-! ## Every update can be completed -/

/-- One exchange leads to another without a wait running out. -/
def Leads (s t : Exchange n) : Prop :=
  ∃ events, Path Step s events t ∧ .host .timesOut ∉ events

theorem Leads.refl (s : Exchange n) : Leads s s :=
  ⟨[], .nil, List.not_mem_nil⟩

theorem Leads.trans {r s t : Exchange n} (hfirst : Leads r s) (hsecond : Leads s t) : Leads r t := by
  obtain ⟨first, hpath, hwaits⟩ := hfirst
  obtain ⟨second, hpath', hwaits'⟩ := hsecond
  refine ⟨first ++ second, hpath.append hpath', ?_⟩
  rw [List.mem_append, not_or]
  exact ⟨hwaits, hwaits'⟩

section
variable {host host' : Host.Stage} {device device' : Device.Stage n Empty} {toDevice toHost : Bytes}

theorem Leads.of_host {act : Host.Act} (h : host.Step act host') (hwait : act ≠ .timesOut) :
    Leads ⟨host, toDevice, act.heard ++ toHost, device⟩
      ⟨host', toDevice ++ act.written, toHost, device⟩ := by
  refine ⟨[.host act], .single (.host h rfl), ?_⟩
  rw [List.mem_singleton]
  intro heq
  exact hwait (Event.host.inj heq).symm

theorem Leads.of_device {act : Device.Act Empty} (h : device.Step act device') :
    Leads ⟨host, act.heard ++ toDevice, toHost, device⟩
      ⟨host, toDevice, toHost ++ act.told, device'⟩ := by
  refine ⟨[.device act], .single (.device h rfl), ?_⟩
  rw [List.mem_singleton]
  intro heq
  cases heq

theorem leads_sends (bs : Bytes) (rest : List Request) :
    Leads ⟨.sending bs rest, toDevice, toHost, device⟩
      ⟨.sending [] rest, toDevice ++ bs, toHost, device⟩ := by
  induction bs generalizing toDevice with
  | nil =>
    rw [List.append_nil]
    exact .refl _
  | cons b bs ih =>
    have hbyte : Leads ⟨.sending (b :: bs) rest, toDevice, toHost, device⟩
        ⟨.sending bs rest, toDevice ++ [b], toHost, device⟩ := .of_host .sends (by simp)
    rw [List.append_cons toDevice]
    exact hbyte.trans ih

end

section
variable {a : Assembler frameCapacity} (ha : a.escaped = false) {r : Request} (hfits : r.Fits)
include ha hfits

/-- A request can be sent, and received but for its last byte, while the host turns to the answer. -/
theorem leads_to_last (m : Nor n) {rest : List Request} {host : Host.Stage}
    (hturn : Host.Stage.Step (.sending [] rest) .settles host) :
    Leads ⟨.sending r.frame rest, [], [], .serving ⟨m, a⟩⟩
      ⟨host, [frameEnd], [], .serving ⟨m, a.after (frameStart :: escape r.content)⟩⟩ := by
  have hsent : Leads ⟨.sending r.frame rest, [], [], .serving ⟨m, a⟩⟩
      ⟨.sending [] rest, r.frame, [], .serving ⟨m, a⟩⟩ := leads_sends r.frame rest
  have hturned : Leads ⟨.sending [] rest, r.frame, [], .serving ⟨m, a⟩⟩
      ⟨host, r.frame ++ [], [], .serving ⟨m, a⟩⟩ := .of_host hturn (by simp)
  have hframe : wrap r.content = [] ++ (frameStart :: escape r.content ++ [frameEnd]) := rfl
  have hreceived := path_receives ha (Request.length_content_lt hfits) hframe m host []
  rw [List.append_nil] at hturned
  exact (hsent.trans hturned).trans ⟨_, hreceived, by simp⟩

/-- A request that programs can be sent, executed and acknowledged. -/
theorem leads_request {m : Nor n} (hn : loaderBase ≤ n) (hbytes : r.HasBytes)
    (hdenied : ¬ Denied r) (hproceed : reaction r = .proceed)
    (hpower : m.power.Covers (requestWrites r).length) {rest : List Request} (hrest : rest ≠ []) :
    Leads ⟨.sending r.frame rest, [], [], .serving ⟨m, a⟩⟩
      ⟨.before rest, [], [],
        .serving ⟨m.after (programChanges (requestWrites r)), a.after r.frame⟩⟩ := by
  have hframe : r.frame = (frameStart :: escape r.content) ++ [frameEnd] := rfl
  have htake := take_last ha hfits hbytes hframe hn hdenied hproceed hpower
  have hlast := leads_to_last ha hfits m (.sent hrest)
  generalize m.after (programChanges (requestWrites r)) = m' at htake ⊢
  have hexecuted : Leads
      ⟨.awaiting rest, [frameEnd], [], .serving ⟨m, a.after (frameStart :: escape r.content)⟩⟩
      ⟨.awaiting rest, [], [], .acknowledging ⟨m', a.after r.frame⟩⟩ :=
    .of_device (.executes htake)
  have htold : Leads ⟨.awaiting rest, [], [], .acknowledging ⟨m', a.after r.frame⟩⟩
      ⟨.awaiting rest, [], [Status.ack.toByte], .serving ⟨m', a.after r.frame⟩⟩ :=
    .of_device .acknowledges
  have hheard : Leads ⟨.awaiting rest, [], [Status.ack.toByte], .serving ⟨m', a.after r.frame⟩⟩
      ⟨.before rest, [], [], .serving ⟨m', a.after r.frame⟩⟩ :=
    .of_host (.hearsAck rfl) (by simp)
  exact ((hlast.trans hexecuted).trans htold).trans hheard

end

/-- From any request of an update on, the rest of it can be completed. -/
theorem leads_rest {m : Nor n} (hn : loaderBase ≤ n)
    (hpower : m.power.Covers (updateWrites image signature).length) (rest : List Request)
    {done : List Request} {r : Request}
    (hrequests : updateRequests image signature = done ++ r :: rest) {a : Assembler frameCapacity}
    (ha : a.escaped = false) :
    Leads ⟨.before (r :: rest), [], [], .serving ⟨reached m done, a⟩⟩
      ⟨.done (.ok ()), [], [],
        .reset (.sessionOver .stopped) (reached m (programRequests image signature))⟩ := by
  obtain ⟨hfits, hbytes⟩ := mem_updateRequests (mem_of_split hrequests)
  rw [Host.Stage.before_cons hfits]
  induction rest generalizing done r a with
  | nil =>
    obtain ⟨rfl, rfl⟩ := eq_stop_of_last hrequests rfl
    have hframe : Request.stop.frame = (frameStart :: escape Request.stop.content) ++ [frameEnd] :=
      rfl
    have htake := take_stop ha hframe (reached m (programRequests image signature))
    exact (leads_to_last ha hfits _ .finishes).trans (.of_device (.stops htake))
  | cons q rest ih =>
    have hrest : q :: rest ≠ [] := List.cons_ne_nil q rest
    obtain ⟨tail, htail⟩ := exists_of_not_last hrequests hrest
    have hmem : r ∈ programRequests image signature := by
      rw [htail]
      exact List.mem_append_right _ List.mem_cons_self
    obtain ⟨-, -, hdenied, hproceed⟩ := mem_programRequests hmem
    have hcovers := covers_reached hrequests hpower hrest
    have hone := leads_request ha hfits hn hbytes hdenied hproceed hcovers hrest
    obtain ⟨-, -, hidle⟩ := Assembler.feed_wrap ha (Request.length_content_lt hfits)
    have hnext : updateRequests image signature = (done ++ [r]) ++ q :: rest := by
      rw [hrequests, List.append_cons]
    obtain ⟨hfitsq, hbytesq⟩ := mem_updateRequests (mem_of_split hnext)
    rw [← reached_concat, before_eq_sending hrequests] at hone
    exact hone.trans (ih hnext hidle.2 hfitsq hbytesq)

/-- Every update can be completed without a wait running out. -/
theorem leads_update (image : Image) (signature : Vector UInt8 signatureLen) {m : Nor n}
    (hn : loaderBase ≤ n) (hpower : m.power.Covers (updateWrites image signature).length)
    {a : Assembler frameCapacity} (ha : a.escaped = false) :
    Leads (opening image signature m a) ⟨.done (.ok ()), [], [],
      .reset (.sessionOver .stopped) (reached m (programRequests image signature))⟩ := by
  obtain ⟨r, rest, hrequests⟩ := List.exists_cons_of_ne_nil
    (List.append_ne_nil_of_right_ne_nil (programRequests image signature) (List.cons_ne_nil .stop []))
  have hupdate : updateRequests image signature = [] ++ r :: rest := hrequests
  have hleads := leads_rest hn hpower rest hupdate ha
  have hreached : reached m [] = m := m.after_nil
  rw [hreached] at hleads
  unfold opening
  rw [hupdate]
  exact hleads

/-! ## The main result -/

/-- In whatever order host and device take their steps, as long as no wait of the host runs out: at
most one request is unacknowledged, the device refuses nothing and the host does not fail, and when
the host is done the device holds the whole image, its size and its signature. This is an exchange of
`flash` with `serve`: with what the host has heard `flash` has done just that, and with what the device
has been fed so has `serve`. Conversely `flash` goes through the stages of the host whatever the line
does, and `serve` through the stages of the device whatever the channel does. -/
theorem update_in_lockstep (image : Image) (signature : Vector UInt8 signatureLen)
    {old m : Nor flashSize} (herase : (eraseBelow loaderBase).run old = (.ok (), m))
    (hpower : m.power.Covers (updateWrites image signature).length) (a : Assembler frameCapacity)
    {events : List Event} {s : Exchange flashSize}
    (hpath : Path Step (opening image signature m a.clear) events s)
    (hwaits : .host .timesOut ∉ events) :
    requested events <+:
        ((updateRequests image signature).take (acks events + 1)).flatMap Request.frame ∧
      s.device.refusal? = none ∧ (∀ e, s.host ≠ .done (.error e)) ∧
      (s.host = .done (.ok ()) →
        Installed (old.slice 0 vectorLen) image signature old.cells s.device.flash.cells) ∧
      Enacts (flash image signature) ⟨m, a.clear⟩ events s ∧
      (Realizes (.before (updateRequests image signature)) (flash image signature) fun _ =>
        .done (.ok ())) ∧
      ∀ link : Script, link.receiving = true →
        Device.Goes (.serving ⟨m, a.clear⟩) link
          (.ended (serve ⟨m, a.clear⟩ link).session (serve ⟨m, a.clear⟩ link).ending)
          (serve ⟨m, a.clear⟩ link).link := by
  have hinStep := inStep_of_path (show loaderBase ≤ flashSize by decide) hpower rfl hpath hwaits
  have hinstalled : s.host = .done (.ok ()) →
      Installed (old.slice 0 vectorLen) image signature old.cells s.device.flash.cells := by
    intro hdone
    have hcleared : m = cleared old := by
      rw [run_eraseBelow_loaderBase] at herase
      obtain ⟨hresult, hmemory⟩ := Prod.mk.inj herase
      split at hresult
      · next hcovers =>
        rw [Quota.take_of_covers hcovers] at hmemory
        exact hmemory.symm
      · cases hresult
    rw [hinStep.flash_of_done hdone, hcleared]
    exact installed_updated old image signature
  have henacts : Enacts (flash image signature) ⟨m, a.clear⟩ events s := by
    rw [flash_eq_sendInTurn]
    exact enacts_of_path hpath hwaits
  exact ⟨hinStep.written_prefix, hinStep.refusal?_eq_none, hinStep.host_ne_error, hinstalled,
    henacts, realizes_flash image signature, goes_serve ⟨m, a.clear⟩⟩

/-- On a blank device an update with a one-byte image can be completed in lockstep: with what was heard
`flash` writes what was written and reports success, and with what it was fed `serve` has installed the
image. -/
theorem one_byte_update_in_lockstep :
    ∃ (events : List Event) (s : Exchange flashSize),
      (eraseBelow loaderBase).run (Nor.blank flashSize) = (.ok (), cleared (Nor.blank flashSize)) ∧
        (cleared (Nor.blank flashSize)).power.Covers
          (updateWrites (Image.ofByte 0x12) (Vector.replicate 64 0)).length ∧
        Path Step (opening (Image.ofByte 0x12) (Vector.replicate 64 0) (cleared (Nor.blank flashSize))
          (Assembler.empty frameCapacity).clear) events s ∧
        .host .timesOut ∉ events ∧ s.host = .done (.ok ()) ∧ s.device.refusal? = none ∧
        Installed ((Nor.blank flashSize).slice 0 vectorLen) (Image.ofByte 0x12)
          (Vector.replicate 64 0) (Nor.blank flashSize).cells s.device.flash.cells ∧
        ((flash (Image.ofByte 0x12) (Vector.replicate 64 0)).run (Line.plain (heard events))).1 =
          .ok () ∧
        requested events <+: ((flash (Image.ofByte 0x12) (Vector.replicate 64 0)).run
          (Line.plain (heard events))).2.sent.toList ∧
        Installed ((Nor.blank flashSize).slice 0 vectorLen) (Image.ofByte 0x12)
          (Vector.replicate 64 0) (Nor.blank flashSize).cells
          (serve ⟨cleared (Nor.blank flashSize), (Assembler.empty frameCapacity).clear⟩
            (Script.plain (fed events))).session.flash.cells := by
  have herase : (eraseBelow loaderBase).run (Nor.blank flashSize) =
      (.ok (), cleared (Nor.blank flashSize)) := run_eraseBelow_cleared rfl
  have hpower : (cleared (Nor.blank flashSize)).power.Covers
      (updateWrites (Image.ofByte 0x12) (Vector.replicate 64 0)).length := by
    rw [cleared_power rfl]
    exact Quota.covers_none _
  obtain ⟨events, hpath, hwaits⟩ := leads_update (Image.ofByte 0x12) (Vector.replicate 64 0)
    (show loaderBase ≤ flashSize by decide) hpower
    (show (Assembler.empty frameCapacity).clear.escaped = false from rfl)
  obtain ⟨-, hrefused, -, hinstalled, henacts, -⟩ :=
    update_in_lockstep (Image.ofByte 0x12) (Vector.replicate 64 0) herase hpower
      (Assembler.empty frameCapacity) hpath hwaits
  refine ⟨events, _, herase, hpower, hpath, hwaits, rfl, hrefused, hinstalled rfl,
    henacts.result _ rfl, henacts.written, ?_⟩
  rw [henacts.flash]
  exact hinstalled rfl

end Exchange

end SignedBoot
