import Mathlib.Data.List.Basic
import Mathlib.Tactic.Common
import SignedBoot.Proofs.Device.ScriptedSession

/-!
# Listening on a scripted channel

A poll looks at one event, so a window of some number of polls sees that many events. If the request
arrives among them with nothing in between but idle stretches, listening finds it and leaves exactly
what arrives behind it. And whenever listening finds a request, the bytes that were read end with it.
-/

namespace SignedBoot.Device

open Layout Wire

/-! ## One poll -/

theorem run_listen_succ {σ ε : Type} [Channel σ ε] (left matched : Nat) (link : σ) :
    (listen (left + 1) matched : Attempt σ ε Bool).run link =
      match (Channel.poll (1000 * pollInterval)).run link with
      | (.error e, link) => (.error e, link)
      | (.ok none, link) => (listen left matched).run link
      | (.ok (some b), link) =>
        if advance matched b = handshakeRequest.length then (.ok true, link)
        else (listen left (advance matched b)).run link := by
  rw [listen, Attempt.run_bind]
  rcases (Channel.poll (1000 * pollInterval)).run link with ⟨e | found, link1⟩
  · rfl
  · cases found with
    | none => rfl
    | some b => exact Attempt.run_ite _ _ _ _

theorem run_awaitHandshake {σ ε : Type} [Channel σ ε] (link : σ) :
    (awaitHandshake : Attempt σ ε Bool).run link =
      (listen pollLimit 0).run (Channel.setReceive true link) := by
  rw [awaitHandshake, Attempt.run_bind_ok (Attempt.run_update _ link)]

namespace Script

/-- Nothing of a script has changed but what is still to arrive and the record of polls and
switchings. -/
structure Kept (link link' : Script) : Prop where
  sent : link'.sent = link.sent
  sendsLeft : link'.sendsLeft = link.sendsLeft
  receiving : link'.receiving = link.receiving

theorem Kept.trans {a b c : Script} (hab : Kept a b) (hbc : Kept b c) : Kept a c :=
  ⟨hbc.sent.trans hab.sent, hbc.sendsLeft.trans hab.sendsLeft, hbc.receiving.trans hab.receiving⟩

/-- A script after a poll that left the given events. -/
def polled (link : Script) (timeout : Nat) (rest : List Event) : Script :=
  { link with incoming := rest, polls := link.polls + 1, lastTimeout := some timeout }

theorem run_poll (timeout : Nat) (link : Script) :
    (Channel.poll timeout : Attempt Script Failure (Option UInt8)).run link =
      ((nextPoll link.incoming).1, link.polled timeout (nextPoll link.incoming).2) := rfl

theorem kept_polled (link : Script) (timeout : Nat) (rest : List Event) :
    Kept link (link.polled timeout rest) :=
  ⟨rfl, rfl, rfl⟩

end Script

open Script

/-! ## The request is found -/

theorem advance_of_getElem? {matched : Nat} {b : UInt8}
    (h : handshakeRequest[matched]? = some b) : advance matched b = matched + 1 :=
  if_pos h

theorem not_drop_prefix_nil {matched : Nat} (h : matched < handshakeRequest.length) :
    ¬ handshakeRequest.drop matched <+: [] := by
  intro hnil
  have hempty := List.drop_eq_nil_iff.1 (List.prefix_nil.1 hnil)
  omega

/-- If the rest of the request arrives inside the window, listening finds it there. -/
theorem listen_finds {left matched : Nat} {link : Script} (hlt : matched < handshakeRequest.length)
    (h : handshakeRequest.drop matched <+: arriving (link.incoming.take left)) :
    ∃ link', (listen left matched).run link = (.ok true, link') ∧ Kept link link' ∧
      arriving link.incoming = handshakeRequest.drop matched ++ arriving link'.incoming ∧
      lastFailure link'.incoming = lastFailure link.incoming := by
  induction left generalizing matched link with
  | zero =>
    rw [List.take_zero] at h
    exact absurd h (not_drop_prefix_nil hlt)
  | succ left ih =>
    rw [run_listen_succ, run_poll]
    rcases hincoming : link.incoming with _ | ⟨event, rest⟩
    · rw [hincoming] at h
      exact absurd h (not_drop_prefix_nil hlt)
    rw [hincoming, List.take_succ_cons] at h
    cases event with
    | error => exact absurd h (not_drop_prefix_nil hlt)
    | idle =>
      have hkept := link.kept_polled (1000 * pollInterval) rest
      obtain ⟨link', hrun, hrest, harriving, hfailure⟩ :=
        @ih _ (link.polled (1000 * pollInterval) rest) hlt h
      exact ⟨link', hrun, hkept.trans hrest, harriving, hfailure⟩
    | byte b =>
      have hkept := link.kept_polled (1000 * pollInterval) rest
      have hnext : handshakeRequest.drop matched =
          handshakeRequest[matched] :: handshakeRequest.drop (matched + 1) :=
        List.drop_eq_getElem_cons hlt
      rw [hnext, arriving, List.cons_prefix_cons] at h
      obtain ⟨rfl, h⟩ := h
      have hadvance : advance matched handshakeRequest[matched] = matched + 1 :=
        advance_of_getElem? (List.getElem?_eq_getElem hlt)
      simp only [nextPoll, hadvance]
      by_cases hlast : matched + 1 = handshakeRequest.length
      · rw [if_pos hlast]
        refine ⟨_, rfl, hkept, ?_, rfl⟩
        rw [hnext, hlast, List.drop_length]
        rfl
      · rw [if_neg hlast]
        obtain ⟨link', hrun, hrest, harriving, hfailure⟩ :=
          @ih _ (link.polled (1000 * pollInterval) rest) (by omega) h
        refine ⟨link', hrun, hkept.trans hrest, ?_, hfailure⟩
        rw [hnext, List.cons_append, ← harriving]
        rfl

/-- Whatever is found has been read. -/
theorem of_listen_eq_true {left matched : Nat} {link link' : Script}
    (h : (listen left matched).run link = (.ok true, link')) :
    ∃ seen, arriving link.incoming = seen ++ arriving link'.incoming ∧
      handshakeRequest <:+ handshakeRequest.take matched ++ seen ∧ Kept link link' := by
  induction left generalizing matched link with
  | zero => cases h
  | succ left ih =>
    rw [run_listen_succ, run_poll] at h
    rcases hincoming : link.incoming with _ | ⟨event, rest⟩
    · rw [hincoming] at h
      obtain ⟨seen, harriving, hends, hkept⟩ := ih h
      exact ⟨seen, harriving, hends, (link.kept_polled _ []).trans hkept⟩
    rw [hincoming] at h
    cases event with
    | error => cases h
    | idle =>
      obtain ⟨seen, harriving, hends, hkept⟩ := ih h
      exact ⟨seen, harriving, hends, (link.kept_polled _ rest).trans hkept⟩
    | byte b =>
      have hkept := link.kept_polled (1000 * pollInterval) rest
      simp only [nextPoll] at h
      by_cases hb : handshakeRequest[matched]? = some b
      · have htake : handshakeRequest.take (matched + 1) = handshakeRequest.take matched ++ [b] := by
          rw [List.take_add_one, hb]
          rfl
        rw [advance_of_getElem? hb] at h
        by_cases hlast : matched + 1 = handshakeRequest.length
        · rw [if_pos hlast] at h
          cases h
          have hwhole : handshakeRequest.take matched ++ [b] = handshakeRequest := by
            rw [← htake, hlast, List.take_length]
          exact ⟨[b], rfl, ⟨[], hwhole.symm⟩, hkept⟩
        · rw [if_neg hlast] at h
          obtain ⟨seen, harriving, hends, hrest⟩ := ih h
          refine ⟨b :: seen, congrArg (b :: ·) harriving, ?_, hkept.trans hrest⟩
          rw [htake, List.append_assoc] at hends
          exact hends
      · -- the match starts over, so the request is found in what is read after this byte
        have hzero : advance matched b = 0 := if_neg hb
        rw [hzero, if_neg (by decide)] at h
        obtain ⟨seen, harriving, hends, hrest⟩ := ih h
        refine ⟨b :: seen, congrArg (b :: ·) harriving, ?_, hkept.trans hrest⟩
        rw [List.take_zero, List.nil_append] at hends
        exact hends.trans ((List.suffix_cons b seen).trans (List.suffix_append _ _))

/-! ## The whole window -/

/-- If the request arrives at once, inside the window, the device finds it and leaves what arrives
behind it. -/
theorem awaitHandshake_finds {link : Script}
    (h : handshakeRequest <+: arriving (link.incoming.take pollLimit)) :
    ∃ link', awaitHandshake.run link = (.ok true, link') ∧
      Kept { link with receiving := true } link' ∧
      arriving link.incoming = handshakeRequest ++ arriving link'.incoming ∧
      lastFailure link'.incoming = lastFailure link.incoming := by
  obtain ⟨link', hrun, hkept, harriving, hfailure⟩ :=
    @listen_finds pollLimit 0 (link.setReceive true) (by decide) h
  exact ⟨link', hrun, ⟨hkept.sent, hkept.sendsLeft, hkept.receiving⟩, harriving, hfailure⟩

theorem knock_plain (bs : Bytes) :
    handshakeRequest <+:
      arriving ((plain (handshakeRequest ++ bs)).incoming.take pollLimit) := by
  have hincoming : (plain (handshakeRequest ++ bs)).incoming =
      (handshakeRequest ++ bs).map .byte := rfl
  rw [hincoming, ← List.map_take, arriving_map_byte, List.prefix_take_iff]
  exact ⟨List.prefix_append _ _, by decide⟩

/-- What the device has read when it finds a request ends with the request. -/
theorem of_awaitHandshake_eq_true {link link' : Script}
    (h : awaitHandshake.run link = (.ok true, link')) :
    ∃ noise, arriving link.incoming = noise ++ handshakeRequest ++ arriving link'.incoming ∧
      Kept { link with receiving := true } link' := by
  have hlisten : (listen pollLimit 0).run (link.setReceive true) = (.ok true, link') := h
  obtain ⟨seen, harriving, ⟨noise, rfl⟩, hkept⟩ := of_listen_eq_true hlisten
  exact ⟨noise, harriving, ⟨hkept.sent, hkept.sendsLeft, hkept.receiving⟩⟩

end SignedBoot.Device
