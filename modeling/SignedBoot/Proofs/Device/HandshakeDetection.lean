import Mathlib.Data.List.Basic
import Mathlib.Data.List.Induction
import Mathlib.Tactic.Common
import SignedBoot.Proofs.Device.Handshake

/-!
# Which requests are heard

Listening keeps one number, how much of the request has been matched, and a byte that does not fit
throws all of it away. What is matched is always at the end of what was received, which is why nothing
but the request is ever taken for it. The other way round a request goes unheard only if its first byte
falls victim to a match that had already begun, and then nothing is matched behind it: of two requests
sent back to back one is heard.
-/

namespace SignedBoot.Device

open Layout Script Wire

/-! ## Matching -/

/-- How much of the request is matched after some more bytes, whether or not all of it was on the
way. -/
def matchedAfter (matched : Nat) (bs : Bytes) : Nat :=
  bs.foldl advance matched

theorem matchedAfter_append (matched : Nat) (xs ys : Bytes) :
    matchedAfter matched (xs ++ ys) = matchedAfter (matchedAfter matched xs) ys :=
  List.foldl_append

theorem advance_le (matched : Nat) (b : UInt8) : advance matched b ≤ handshakeRequest.length := by
  rw [advance]
  split
  · next h => exact (List.getElem?_eq_some_iff.1 h).1
  · exact Nat.zero_le _

/-- What is matched stands at the end of what was received. -/
theorem take_matchedAfter_suffix (bs : Bytes) :
    handshakeRequest.take (matchedAfter 0 bs) <:+ bs := by
  induction bs using List.reverseRecOn with
  | nil => exact List.suffix_refl _
  | append_singleton bs b ih =>
    rw [matchedAfter_append]
    show handshakeRequest.take (advance (matchedAfter 0 bs) b) <:+ bs ++ [b]
    by_cases hb : handshakeRequest[matchedAfter 0 bs]? = some b
    · rw [advance_of_getElem? hb, List.take_add_one, hb]
      obtain ⟨front, hfront⟩ := ih
      exact ⟨front, by rw [Option.toList_some, ← List.append_assoc, hfront]⟩
    · have hzero : advance (matchedAfter 0 bs) b = 0 := if_neg hb
      rw [hzero]
      exact List.nil_suffix

theorem matchedAfter_le (bs : Bytes) : matchedAfter 0 bs ≤ handshakeRequest.length := by
  rcases List.eq_nil_or_concat bs with rfl | ⟨front, b, rfl⟩
  · exact Nat.zero_le _
  · rw [List.concat_eq_append, matchedAfter_append]
    exact advance_le _ b

/-- Whether a run of bytes ends in a front part of the request that is neither empty nor all of it. -/
def EndsPartway (bs : Bytes) : Prop :=
  ∃ k, 0 < k ∧ k < handshakeRequest.length ∧ handshakeRequest.take k <:+ bs

/-- Behind bytes that do not end partway through a request, a request is matched, unless one was
already matched among those bytes. -/
theorem exists_matched_front {before : Bytes} (h : ¬ EndsPartway before) :
    ∃ front, front <+: before ++ handshakeRequest ∧
      matchedAfter 0 front = handshakeRequest.length := by
  by_cases hnone : matchedAfter 0 before = 0
  · refine ⟨before ++ handshakeRequest, List.prefix_refl _, ?_⟩
    rw [matchedAfter_append, hnone]
    rfl
  · refine ⟨before, List.prefix_append _ _, ?_⟩
    by_contra hpart
    exact h ⟨matchedAfter 0 before, Nat.pos_of_ne_zero hnone,
      Nat.lt_of_le_of_ne (matchedAfter_le before) hpart, take_matchedAfter_suffix before⟩

/-- No request ends partway through another one, since a newline stands only at its end. -/
theorem not_endsPartway_request (noise : Bytes) : ¬ EndsPartway (noise ++ handshakeRequest) := by
  rintro ⟨k, hpos, hlt, front, hfront⟩
  have hpart : ∀ k < handshakeRequest.length, 0 < k → handshakeRequest.take k ≠ [] ∧
      (handshakeRequest.take k).getLast? ≠ handshakeRequest.getLast? := by decide
  obtain ⟨hne, hlast⟩ := hpart k hlt hpos
  have hends := congrArg List.getLast? hfront
  rw [List.getLast?_append_of_ne_nil _ hne,
    List.getLast?_append_of_ne_nil noise (show handshakeRequest ≠ [] by decide)] at hends
  exact hlast hends

/-! ## Polling -/

/-- The bytes that the first `count` polls find, with the polls that find nothing left out. -/
def heard (link : Script) (count : Nat) : Bytes :=
  arriving (link.incoming.take count)

/-- What a poll finds if the next event is no failure, and how it adds to what is heard. -/
theorem nextPoll_of_no_error {events : List Event} {left : Nat}
    (h : Event.error ∉ events.take (left + 1)) :
    ∃ found, nextPoll events = (.ok found, events.drop 1) ∧
      Event.error ∉ (events.drop 1).take left ∧
      ∀ k, arriving (events.take (k + 1)) = found.toList ++ arriving ((events.drop 1).take k) := by
  rcases events with _ | ⟨event, rest⟩
  · refine ⟨none, rfl, by simp, fun k => ?_⟩
    rw [List.drop_nil, List.take_nil, List.take_nil]
    rfl
  rw [List.take_succ_cons, List.mem_cons, not_or] at h
  cases event with
  | byte b => exact ⟨some b, rfl, h.2, fun _ => rfl⟩
  | idle => exact ⟨none, rfl, h.2, fun _ => rfl⟩
  | error => exact absurd rfl h.1

/-- How listening ended after some number of polls, with part of the request matched beforehand: the
request was complete at the last of them if it was found, and at none of them otherwise. -/
structure Listened (left matched : Nat) (link : Script) (found : Bool) (link' : Script)
    (made : Nat) : Prop where
  made_le : made ≤ left
  polls : link'.polls = link.polls + made
  incoming : link'.incoming = link.incoming.drop made
  before : ∀ k < made, matchedAfter matched (heard link k) ≠ handshakeRequest.length
  found_iff : found = true ↔ matchedAfter matched (heard link made) = handshakeRequest.length
  newline : found = true → ∃ polled, link.incoming.take made = polled ++ [.byte frameEnd]
  window : found = false → made = left

theorem eq_frameEnd_of_advance {matched : Nat} {b : UInt8}
    (h : advance matched b = handshakeRequest.length) : b = frameEnd := by
  rw [advance] at h
  split at h
  · next hb =>
    obtain rfl : matched = 4 := Nat.succ.inj h
    exact (Option.some.inj hb).symm
  · cases h

theorem eq_byte_of_nextPoll {events rest : List Event} {b : UInt8}
    (h : nextPoll events = (.ok (some b), rest)) : events = .byte b :: rest := by
  rcases events with _ | ⟨_ | _ | _, events⟩
  · cases h
  · cases h
    rfl
  · cases h
  · cases h

/-- If the first poll completes the request, listening ends with it. -/
theorem Listened.first {left matched : Nat} {link : Script} {b : UInt8}
    (hlt : matched < handshakeRequest.length)
    (hpoll : nextPoll link.incoming = (.ok (some b), link.incoming.drop 1))
    (hlast : advance matched b = handshakeRequest.length) :
    Listened (left + 1) matched link true
      (link.polled (1000 * pollInterval) (link.incoming.drop 1)) 1 where
  made_le := Nat.succ_le_succ (Nat.zero_le left)
  polls := rfl
  incoming := rfl
  before k hk := by
    obtain rfl := Nat.lt_one_iff.1 hk
    exact Nat.ne_of_lt hlt
  found_iff := by
    refine ⟨fun _ => ?_, fun _ => rfl⟩
    rw [heard, eq_byte_of_nextPoll hpoll]
    exact hlast
  newline _ := by
    rw [eq_byte_of_nextPoll hpoll, eq_frameEnd_of_advance hlast]
    exact ⟨[], rfl⟩
  window h := absurd h.symm Bool.false_ne_true

/-- If a first poll does not complete the request, listening ends as it does behind that poll. -/
theorem Listened.cons {left matched matched' : Nat} {link link' : Script} {found : Bool} {made : Nat}
    (hlt : matched < handshakeRequest.length)
    (hheard : ∀ k, matchedAfter matched (heard link (k + 1)) =
      matchedAfter matched' (heard (link.polled (1000 * pollInterval) (link.incoming.drop 1)) k))
    (h : Listened left matched' (link.polled (1000 * pollInterval) (link.incoming.drop 1)) found link'
      made) :
    Listened (left + 1) matched link found link' (made + 1) where
  made_le := Nat.succ_le_succ h.made_le
  polls := by
    rw [h.polls]
    exact Nat.succ_add_eq_add_succ _ _
  incoming := by
    rw [h.incoming, Nat.add_comm]
    exact List.drop_drop
  before k hk := by
    cases k with
    | zero => exact Nat.ne_of_lt hlt
    | succ k =>
      rw [hheard]
      exact h.before k (Nat.lt_of_succ_lt_succ hk)
  found_iff := by
    rw [hheard]
    exact h.found_iff
  newline hfound := by
    obtain ⟨polled, hpolled⟩ := h.newline hfound
    refine ⟨link.incoming.take 1 ++ polled, ?_⟩
    rw [Nat.add_comm, List.take_add, List.append_assoc]
    exact congrArg _ hpolled
  window hnone := congrArg Nat.succ (h.window hnone)

/-- Without a failure in the window listening comes to an end, and it ends so. -/
theorem exists_listened {left matched : Nat} {link : Script}
    (hlt : matched < handshakeRequest.length) (h : Event.error ∉ link.incoming.take left) :
    ∃ found link' made, (listen left matched).run link = (.ok found, link') ∧
      Listened left matched link found link' made := by
  induction left generalizing matched link with
  | zero =>
    refine ⟨false, link, 0, rfl, ?_⟩
    exact {
      made_le := Nat.le_refl 0
      polls := rfl
      incoming := rfl
      before := fun k hk => absurd hk (Nat.not_lt_zero k)
      found_iff := ⟨fun h => absurd h Bool.false_ne_true, fun h => absurd h (Nat.ne_of_lt hlt)⟩
      newline := fun h => absurd h Bool.false_ne_true
      window := fun _ => rfl }
  | succ left ih =>
    obtain ⟨answer, hpoll, hrest, hheard⟩ := nextPoll_of_no_error h
    rw [run_listen_succ, run_poll, hpoll]
    cases answer with
    | none =>
      obtain ⟨found, link', made, hrun, hlistened⟩ :=
        @ih matched (link.polled (1000 * pollInterval) (link.incoming.drop 1)) hlt hrest
      refine ⟨found, link', made + 1, hrun, hlistened.cons hlt fun k => ?_⟩
      exact congrArg (matchedAfter matched) (hheard k)
    | some b =>
      have hstep (k : Nat) : matchedAfter matched (heard link (k + 1)) =
          matchedAfter (advance matched b)
            (heard (link.polled (1000 * pollInterval) (link.incoming.drop 1)) k) :=
        congrArg (matchedAfter matched) (hheard k)
      by_cases hlast : advance matched b = handshakeRequest.length
      · exact ⟨true, _, 1, if_pos hlast, .first hlt hpoll hlast⟩
      · have hadvance : advance matched b < handshakeRequest.length :=
          Nat.lt_of_le_of_ne (advance_le matched b) hlast
        obtain ⟨found, link', made, hrun, hlistened⟩ :=
          @ih (advance matched b) (link.polled (1000 * pollInterval) (link.incoming.drop 1)) hadvance
            hrest
        exact ⟨found, link', made + 1, (if_neg hlast).trans hrun, hlistened.cons hlt hstep⟩

/-! ## The whole window -/

/-- A front part of the bytes that arrive ends at one of the events. -/
theorem exists_arriving_take_eq {events : List Event} {front : Bytes} {count : Nat}
    (h : front <+: arriving (events.take count)) :
    ∃ k ≤ count, arriving (events.take k) = front := by
  induction events generalizing front count with
  | nil =>
    rw [List.take_nil] at h
    exact ⟨0, Nat.zero_le count, (List.prefix_nil.1 h).symm⟩
  | cons event rest ih =>
    cases front with
    | nil => exact ⟨0, Nat.zero_le count, rfl⟩
    | cons b front =>
      cases count with
      | zero => cases List.prefix_nil.1 h
      | succ count =>
        rw [List.take_succ_cons] at h
        cases event with
        | byte c =>
          obtain ⟨rfl, hfront⟩ := List.cons_prefix_cons.1 h
          obtain ⟨k, hk, harriving⟩ := ih hfront
          exact ⟨k + 1, Nat.succ_le_succ hk, congrArg (b :: ·) harriving⟩
        | idle =>
          obtain ⟨k, hk, harriving⟩ := ih h
          exact ⟨k + 1, Nat.succ_le_succ hk, harriving⟩
        | error => cases List.prefix_nil.1 h

/-- Once the request has been matched at some poll it is found, there or earlier. -/
theorem Listened.found_of_matched {left : Nat} {link link' : Script} {found : Bool} {made k : Nat}
    (h : Listened left 0 link found link' made) (hk : k ≤ left)
    (hmatched : matchedAfter 0 (heard link k) = handshakeRequest.length) :
    found = true ∧ made ≤ k := by
  have hle : made ≤ k := by
    by_contra hlt
    exact h.before k (Nat.lt_of_not_le hlt) hmatched
  refine ⟨?_, hle⟩
  cases hfound : found with
  | true => rfl
  | false =>
    -- the window was polled to its end, so that was the last poll
    have hlast : made = k := Nat.le_antisymm hle (h.window hfound ▸ hk)
    rw [← hlast] at hmatched
    rw [← hfound]
    exact h.found_iff.2 hmatched

theorem Listened.found_of_request {left : Nat} {link link' : Script} {found : Bool} {made k : Nat}
    (h : Listened left 0 link found link' made) (hk : k ≤ left) {before : Bytes}
    (hheard : heard link k = before ++ handshakeRequest) (hbefore : ¬ EndsPartway before) :
    found = true ∧ made ≤ k := by
  obtain ⟨front, hfront, hmatched⟩ := exists_matched_front hbefore
  rw [← hheard] at hfront
  obtain ⟨j, hj, hfront⟩ : ∃ j ≤ k, heard link j = front := exists_arriving_take_eq hfront
  rw [← hfront] at hmatched
  obtain ⟨hfound, hmade⟩ := h.found_of_matched (Nat.le_trans hj hk) hmatched
  exact ⟨hfound, Nat.le_trans hmade hj⟩

/-- When a request is found within the window, the bytes received end with it and the poll that found
its newline was the last. A request that ends inside the window is found, if none was before it,
unless the bytes in front of it end partway through a request; so one of two requests sent back to
back is found whatever came before them. And when none is found the window was polled to its end. -/
theorem handshake_detected {link : Script} (h : Event.error ∉ link.incoming.take pollLimit) :
    ∃ found link' made, awaitHandshake.run link = (.ok found, link') ∧
      link'.polls = link.polls + made ∧ link'.incoming = link.incoming.drop made ∧
      made ≤ pollLimit ∧
      (found = true → handshakeRequest <:+ heard link made ∧
        ∃ polled, link.incoming.take made = polled ++ [.byte frameEnd]) ∧
      (∀ k ≤ pollLimit, ∀ before, heard link k = before ++ handshakeRequest →
        ¬ EndsPartway before → found = true ∧ made ≤ k) ∧
      (∀ k ≤ pollLimit, ∀ noise, heard link k = noise ++ handshakeRequest ++ handshakeRequest →
        found = true ∧ made ≤ k) ∧
      (found = false → made = pollLimit) := by
  obtain ⟨found, link', made, hrun, hlistened⟩ :=
    @exists_listened pollLimit 0 (link.setReceive true) (by decide) h
  refine ⟨found, link', made, hrun, hlistened.polls, hlistened.incoming, hlistened.made_le, ?_, ?_,
    ?_, hlistened.window⟩
  · intro hfound
    have hsuffix := take_matchedAfter_suffix (heard (link.setReceive true) made)
    rw [hlistened.found_iff.1 hfound, List.take_length] at hsuffix
    exact ⟨hsuffix, hlistened.newline hfound⟩
  · intro k hk before hheard hbefore
    exact hlistened.found_of_request hk hheard hbefore
  · intro k hk noise hheard
    exact hlistened.found_of_request hk hheard (not_endsPartway_request noise)

/-- A stray `@`, which takes the request behind it down with it, and after a pause the request
again. -/
def missedKnock : Script :=
  .ofEvents ((0x40 :: handshakeRequest).map .byte ++ .idle :: handshakeRequest.map .byte) none true

theorem knock_behind_missed_knock :
    Event.error ∉ missedKnock.incoming.take pollLimit ∧
      heard missedKnock 12 = [0x40] ++ handshakeRequest ++ handshakeRequest ∧
      ∃ link' made, awaitHandshake.run missedKnock = (.ok true, link') ∧ link'.polls = made ∧
        link'.incoming = missedKnock.incoming.drop made ∧ made ≤ 12 ∧
        handshakeRequest <:+ heard missedKnock made := by
  have hquiet : Event.error ∉ missedKnock.incoming.take pollLimit := by decide
  have hheard : heard missedKnock 12 = [0x40] ++ handshakeRequest ++ handshakeRequest := by decide
  obtain ⟨found, link', made, hrun, hpolls, hincoming, -, hsound, -, htwice, -⟩ :=
    handshake_detected hquiet
  obtain ⟨rfl, hmade⟩ := htwice 12 (by decide) [0x40] hheard
  refine ⟨hquiet, hheard, link', made, hrun, ?_, hincoming, hmade, (hsound rfl).1⟩
  rw [hpolls]
  exact Nat.zero_add made

-- the first request is indeed missed
example :
    ((listen 6 0 : Attempt Script Failure Bool).run (plain (0x40 :: handshakeRequest))).1 =
      .ok false := by
  rfl

end SignedBoot.Device
