import Mathlib.Data.List.Infix
import SignedBoot.Proofs.Host.OpenLine

/-!
# The windows of a handshake

Each attempt of a handshake sends the start sequence and then listens until the line falls silent or
fails. What is heard meanwhile is the window of the attempt. The handshake succeeds in the first attempt
whose window has the response anywhere in it, whatever comes before it, and leaves what comes behind it
on the line.

The host compares the end of what it has heard with the response after every byte. A response that is
heard for the first time is then at the end of what has been heard, and so nothing is read behind it.
-/

namespace SignedBoot.Host

open Wire

/-! ## Windows -/

/-- What is heard on a line until it falls silent or fails. -/
structure Window where
  heard : Bytes
  /-- How the line failed, if it did not fall silent. -/
  failure : Option IoKind
  /-- The line behind the window. -/
  after : Line

/-- What is heard on a line from now on. -/
def Line.window (l : Line) : Window :=
  match _h : (Line.read readTimeout).run l with
  | (.error k, l) => ⟨[], some k, l⟩
  | (.ok none, l) => ⟨[], none, l⟩
  | (.ok (some b), l1) =>
    let later := l1.window
    { later with heard := b :: later.heard }
termination_by l.incoming.length
decreasing_by exact Line.read_incoming_lt _h

/-- The response is heard somewhere in a window. -/
def Window.Answers (w : Window) : Prop :=
  handshakeResponse <:+: w.heard

/-- Nothing ends a handshake in a window. -/
def Window.Quiet (w : Window) : Prop :=
  w.failure = none ∧ ¬ w.Answers

namespace Line

variable {l l' : Line}

theorem window_of_failed {k : IoKind} (h : (read readTimeout).run l = (.error k, l')) :
    l.window = ⟨[], some k, l'⟩ := by
  rw [window]
  split
  all_goals simp_all

theorem window_of_silent (h : (read readTimeout).run l = (.ok none, l')) :
    l.window = ⟨[], none, l'⟩ := by
  rw [window]
  split
  all_goals simp_all

theorem window_of_heard {b : UInt8} (h : (read readTimeout).run l = (.ok (some b), l')) :
    l.window = { l'.window with heard := b :: l'.window.heard } := by
  rw [window]
  split
  all_goals simp_all

/-- A window takes from the line what is heard in it, and nothing from what can be written. -/
theorem window_keeps (l : Line) :
    l.window.after.sent = l.sent ∧ l.arriving = l.window.heard ++ l.window.after.arriving ∧
      ∀ {bytes flushes}, l.Carries bytes flushes → l.window.after.Carries bytes flushes := by
  fun_induction window l with
  | case1 l k l' hread =>
    exact ⟨(keeps_of_read hread).1, arriving_of_read hread, (keeps_of_read hread).2⟩
  | case2 l l' hread =>
    exact ⟨(keeps_of_read hread).1, arriving_of_read hread, (keeps_of_read hread).2⟩
  | case3 l b l' hread later ih =>
    obtain ⟨hsent, harriving, hcarries⟩ := ih
    refine ⟨hsent.trans (keeps_of_read hread).1, ?_, fun h => hcarries ((keeps_of_read hread).2 h)⟩
    rw [arriving_of_read hread, harriving]
    rfl

end Line

/-! ## Waiting for the response -/

theorem endsWith_iff {expected received : Bytes} {b : UInt8} :
    endsWith expected (b :: received) = true ↔ expected <:+ received.reverse ++ [b] := by
  rw [endsWith, List.isPrefixOf_iff_prefix, ← List.reverse_prefix, List.reverse_append,
    List.reverse_reverse]
  rfl

/-- Listening for some bytes stops behind the first place where they are heard, or at the end of the
window. -/
theorem expectAfter_cases {expected received : Bytes} (l : Line)
    (hbefore : ¬ expected <:+: received.reverse) :
    (∃ front b rest l', l.window.heard = front ++ b :: rest ∧
      expected <:+ received.reverse ++ front ++ [b] ∧
      ¬ expected <:+: received.reverse ++ front ∧
      expectAfter expected received l = (.ok true, l') ∧
      l'.window = { l.window with heard := rest } ∧ l'.sent = l.sent ∧
      l.arriving = front ++ b :: l'.arriving) ∨
    (¬ expected <:+: received.reverse ++ l.window.heard ∧
      expectAfter expected received l =
        (l.window.failure.elim (.ok false) fun k => .error (.link (.kind k)), l.window.after)) := by
  fun_induction expectAfter expected received l with
  | case1 received l k l' hread =>
    rw [Line.window_of_failed hread, List.append_nil]
    exact Or.inr ⟨hbefore, rfl⟩
  | case2 received l l' hread =>
    rw [Line.window_of_silent hread, List.append_nil]
    exact Or.inr ⟨hbefore, rfl⟩
  | case3 received l b l' hread hends =>
    rw [Line.window_of_heard hread]
    refine Or.inl ⟨[], b, l'.window.heard, l', rfl, ?_, ?_, rfl, rfl, (Line.keeps_of_read hread).1,
      Line.arriving_of_read hread⟩
    · rw [List.append_nil]
      exact endsWith_iff.1 hends
    · rw [List.append_nil]
      exact hbefore
  | case4 received l b l' hread hends ih =>
    -- Not heard before, and not at the end now: still not heard.
    have hbefore' : ¬ expected <:+: (b :: received).reverse := by
      rw [List.reverse_cons, List.infix_concat_iff]
      exact not_or.2 ⟨fun hsuffix => hends (endsWith_iff.2 hsuffix), hbefore⟩
    have hreceived : ∀ later : Bytes,
        (b :: received).reverse ++ later = received.reverse ++ b :: later := by
      intro later
      rw [List.reverse_cons, List.append_assoc, List.singleton_append]
    rw [Line.window_of_heard hread]
    rcases ih hbefore' with
      ⟨front, c, rest, l'', hheard, hsuffix, hfirst, hrun, hwindow, hsent, harriving⟩ | ⟨hnone, hrun⟩
    · rw [hreceived] at hsuffix hfirst
      refine Or.inl ⟨b :: front, c, rest, l'', ?_, hsuffix, hfirst, hrun, hwindow,
        hsent.trans (Line.keeps_of_read hread).1, ?_⟩
      · rw [hheard]
        rfl
      · rw [Line.arriving_of_read hread, harriving]
        rfl
    · rw [hreceived] at hnone
      exact Or.inr ⟨hnone, hrun⟩

theorem not_response_infix_nil : ¬ handshakeResponse <:+: ([] : Bytes).reverse := by
  decide

/-- Listening for the response finds the first one in the window and stops behind it. -/
theorem expect_of_answers {l : Line} (h : l.window.Answers) :
    ∃ noise rest l', l.window.heard = noise ++ handshakeResponse ++ rest ∧
      ¬ handshakeResponse <:+: noise ++ handshakeResponse.dropLast ∧
      (expect handshakeResponse).run l = (.ok true, l') ∧
      l'.window = { l.window with heard := rest } ∧ l'.sent = l.sent ∧
      l.arriving = noise ++ handshakeResponse ++ l'.arriving := by
  rcases expectAfter_cases l not_response_infix_nil with
    ⟨front, b, rest, l', hheard, ⟨noise, hnoise⟩, hfirst, hrun, hwindow, hsent, harriving⟩ |
    ⟨hnone, -⟩
  · have hsplit : ∀ later, noise ++ handshakeResponse ++ later = front ++ b :: later := by
      intro later
      rw [hnoise]
      simp
    have hfront : noise ++ handshakeResponse.dropLast = front := by
      have hdrop := congrArg List.dropLast hnoise
      rw [List.dropLast_append_of_ne_nil (by decide), List.dropLast_concat] at hdrop
      exact hdrop
    refine ⟨noise, rest, l', hheard.trans (hsplit rest).symm, ?_, hrun, hwindow, hsent,
      harriving.trans (hsplit _).symm⟩
    rw [hfront]
    exact hfirst
  · exact absurd h hnone

/-- Listening for the response goes through a window without one. -/
theorem expect_of_not_answers {l : Line} (h : ¬ l.window.Answers) :
    (expect handshakeResponse).run l =
      (l.window.failure.elim (.ok false) fun k => .error (.link (.kind k)), l.window.after) := by
  rcases expectAfter_cases l not_response_infix_nil with
    ⟨front, b, rest, l', hheard, hsuffix, -⟩ | ⟨-, hrun⟩
  · refine absurd (hsuffix.isInfix.trans ?_) h
    exact ⟨[], rest, by simp [hheard]⟩
  · exact hrun

/-! ## Attempts -/

namespace Line

/-- The line after some bytes have been sent one by one. -/
def wroteSlowly (bs : Bytes) (l : Line) : Line :=
  bs.foldl (fun l b => (l.wrote [b]).sleep byteGap) l

/-- The line after the start sequence has been sent. -/
def knocked (l : Line) : Line :=
  l.wroteSlowly handshakeRequest

/-- The line after a number of attempts that were not answered. -/
def turn (l : Line) : Nat → Line
  | 0 => l
  | k + 1 => (l.turn k).knocked.window.after

/-- What is heard in an attempt, the first of which has number 0. -/
def attempt (l : Line) (k : Nat) : Window :=
  (l.turn k).knocked.window

/-- An attempt is answered, and no attempt before it is answered or fails. -/
def AnsweredIn (l : Line) (k : Nat) : Prop :=
  (l.attempt k).Answers ∧ ∀ j < k, (l.attempt j).Quiet

/-- What is heard before an attempt. -/
def heardBefore (l : Line) (k : Nat) : Bytes :=
  (List.range k).flatMap fun j => (l.attempt j).heard

end Line

/-- The start sequence a number of times. -/
def knocks (times : Nat) : Bytes :=
  (List.replicate times handshakeRequest).flatten

theorem knocks_succ (times : Nat) : knocks (times + 1) = knocks times ++ handshakeRequest := by
  rw [knocks, List.replicate_succ', List.flatten_concat]
  rfl

theorem length_knocks (times : Nat) : (knocks times).length = times * handshakeRequest.length := by
  simp [knocks]

theorem knocks_inj {m n : Nat} (h : knocks m = knocks n) : m = n := by
  have hlength := congrArg List.length h
  rw [length_knocks, length_knocks] at hlength
  exact Nat.eq_of_mul_eq_mul_right (by decide) hlength

namespace Line

theorem wroteSlowly_keeps (bs : Bytes) (l : Line) :
    (l.wroteSlowly bs).sent.toList = l.sent.toList ++ bs ∧
      (l.wroteSlowly bs).arriving = l.arriving := by
  induction bs generalizing l with
  | nil => exact ⟨(List.append_nil _).symm, rfl⟩
  | cons b bs ih =>
    obtain ⟨hsent, harriving⟩ := ih ((l.wrote [b]).sleep byteGap)
    refine ⟨hsent.trans ?_, harriving⟩
    simp [sleep, wrote]

theorem Carries.wroteSlowly {bs : Bytes} {l : Line} {bytes flushes : Nat}
    (h : l.Carries (bs.length + bytes) (bs.length + flushes)) :
    (l.wroteSlowly bs).Carries bytes flushes := by
  induction bs generalizing l with
  | nil => exact h.mono (Nat.le_add_left _ _) (Nat.le_add_left _ _)
  | cons b bs ih =>
    have hwrote : (l.wrote [b]).Carries (bs.length + bytes) (bs.length + flushes) :=
      Carries.wrote (h.mono (by simp; omega) (by simp; omega))
    exact ih ⟨hwrote.writes, hwrote.room, hwrote.flush⟩

/-- Before an attempt the start sequence has been sent once for each attempt before it, and what was
heard in those is all that has been read. -/
theorem turn_keeps (l : Line) (k : Nat) :
    (l.turn k).sent.toList = l.sent.toList ++ knocks k ∧
      l.arriving = l.heardBefore k ++ (l.turn k).arriving := by
  induction k with
  | zero => exact ⟨(List.append_nil _).symm, rfl⟩
  | succ k ih =>
    obtain ⟨hsent, harriving⟩ := ih
    obtain ⟨hknock, hstill⟩ := wroteSlowly_keeps handshakeRequest (l.turn k)
    obtain ⟨hsame, hwindow, -⟩ := window_keeps (l.turn k).knocked
    refine ⟨?_, ?_⟩
    · rw [turn, hsame, knocked, hknock, hsent, knocks_succ, List.append_assoc]
    · have hbefore : l.heardBefore (k + 1) = l.heardBefore k ++ (l.attempt k).heard := by
        rw [heardBefore, List.range_succ, List.flatMap_append, List.flatMap_singleton]
        rfl
      rw [hbefore, harriving, ← hstill, List.append_assoc]
      exact congrArg (l.heardBefore k ++ ·) hwindow

theorem Carries.turn {l : Line} {k more : Nat}
    (h : l.Carries ((more + k) * handshakeRequest.length) ((more + k) * handshakeRequest.length)) :
    (l.turn k).Carries (more * handshakeRequest.length) (more * handshakeRequest.length) := by
  induction k generalizing more with
  | zero => exact h
  | succ k ih =>
    rw [← Nat.add_assoc, Nat.add_right_comm] at h
    have hturn := ih h
    rw [Nat.succ_mul, Nat.add_comm] at hturn
    exact (window_keeps _).2.2 (Carries.wroteSlowly hturn)

end Line

/-- Bytes are sent one by one on a line that takes them. -/
theorem run_forM_transmit {bs : Bytes} {l : Line} (h : l.Carries bs.length bs.length) :
    (bs.forM fun b => do
      transmit [b]
      Attempt.update (Line.sleep byteGap)).run l = (.ok (), l.wroteSlowly bs) := by
  induction bs generalizing l with
  | nil => rfl
  | cons b bs ih =>
    have hbyte : (transmit [b] >>= fun _ => Attempt.update (Line.sleep byteGap)).run l =
        (.ok (), (l.wrote [b]).sleep byteGap) :=
      Attempt.run_bind_ok (Line.run_transmit (h.mono (by simp) (by simp)))
    have hwrote : (l.wrote [b]).Carries bs.length bs.length :=
      Line.Carries.wrote (h.mono (by simp; omega) (by simp; omega))
    exact (Attempt.run_bind_ok hbyte).trans (ih ⟨hwrote.writes, hwrote.room, hwrote.flush⟩)

theorem run_knock {l : Line} (h : l.Carries handshakeRequest.length handshakeRequest.length) :
    knock.run l = (.ok (), l.knocked) :=
  run_forM_transmit h

section
variable {attempts : Nat} {l l' : Line}

theorem run_handshake_of_heard (h : l.Carries handshakeRequest.length handshakeRequest.length)
    (hexpect : (expect handshakeResponse).run l.knocked = (.ok true, l')) :
    (handshake (attempts + 1)).run l = (.ok (), l') := by
  rw [handshake, Attempt.run_bind_ok (run_knock h), Attempt.run_bind_ok hexpect]
  rfl

theorem run_handshake_of_silent (h : l.Carries handshakeRequest.length handshakeRequest.length)
    (hexpect : (expect handshakeResponse).run l.knocked = (.ok false, l')) :
    (handshake (attempts + 1)).run l = (handshake attempts).run l' := by
  rw [handshake, Attempt.run_bind_ok (run_knock h), Attempt.run_bind_ok hexpect]
  rfl

theorem run_handshake_of_failed {e : Failure}
    (h : l.Carries handshakeRequest.length handshakeRequest.length)
    (hexpect : (expect handshakeResponse).run l.knocked = (.error e, l')) :
    (handshake (attempts + 1)).run l = (.error e, l') := by
  rw [handshake, Attempt.run_bind_ok (run_knock h), Attempt.run_bind_error hexpect]

/-- Attempts in which nothing ends the handshake lead to the next one. -/
theorem run_handshake_of_quiet {k more : Nat}
    (h : l.Carries ((more + k) * handshakeRequest.length) ((more + k) * handshakeRequest.length))
    (hquiet : ∀ j < k, (l.attempt j).Quiet) :
    (handshake (more + k)).run l = (handshake more).run (l.turn k) := by
  induction k generalizing more with
  | zero => rfl
  | succ k ih =>
    rw [← Nat.add_assoc, Nat.add_right_comm] at h ⊢
    rw [ih h fun j hj => hquiet j (Nat.lt_succ_of_lt hj)]
    obtain ⟨hnofail, hnone⟩ := hquiet k (Nat.lt_succ_self k)
    have hexpect := expect_of_not_answers hnone
    rw [show (l.turn k).knocked.window.failure = none from hnofail] at hexpect
    refine run_handshake_of_silent (h.turn.mono ?_ ?_) hexpect
    all_goals exact Nat.le_mul_of_pos_left _ (Nat.succ_pos more)

end

/-- An attempt is answered, or the line fails in one, or nothing happens in any. -/
theorem attempts_trichotomy (l : Line) (attempts : Nat) :
    (∃ k < attempts, l.AnsweredIn k) ∨
      (∃ k < attempts, ∃ e, (∀ j < k, (l.attempt j).Quiet) ∧ ¬ (l.attempt k).Answers ∧
        (l.attempt k).failure = some e) ∨
      ∀ k < attempts, (l.attempt k).Quiet := by
  classical
  by_cases hquiet : ∀ k < attempts, (l.attempt k).Quiet
  · exact Or.inr (Or.inr hquiet)
  have hloud : ∃ k, k < attempts ∧ ¬ (l.attempt k).Quiet := by
    by_contra hnone
    exact hquiet fun k hk => by_contra fun hloud => hnone ⟨k, hk, hloud⟩
  -- The first attempt that is not quiet decides.
  have hfirst : ∀ j < Nat.find hloud, (l.attempt j).Quiet := by
    intro j hj
    by_contra hloud'
    exact Nat.find_min hloud hj ⟨Nat.lt_trans hj (Nat.find_spec hloud).1, hloud'⟩
  obtain ⟨hlt, hnot⟩ := Nat.find_spec hloud
  by_cases hanswers : (l.attempt (Nat.find hloud)).Answers
  · exact Or.inl ⟨_, hlt, hanswers, hfirst⟩
  · have hfailure : (l.attempt (Nat.find hloud)).failure ≠ none :=
      fun hnone => hnot ⟨hnone, hanswers⟩
    obtain ⟨e, he⟩ := Option.ne_none_iff_exists'.1 hfailure
    exact Or.inr (Or.inl ⟨_, hlt, e, hfirst, hanswers, he⟩)

/-! ## The handshake -/

section
variable {attempts : Nat} {l : Line}
  (h : l.Carries (attempts * handshakeRequest.length) (attempts * handshakeRequest.length))
include h

/-- A handshake comes to the first attempt in which something happens. -/
theorem exists_run_handshake_eq {k : Nat} (hk : k < attempts)
    (hquiet : ∀ j < k, (l.attempt j).Quiet) :
    ∃ more, (handshake attempts).run l = (handshake (more + 1)).run (l.turn k) ∧
      (l.turn k).Carries handshakeRequest.length handshakeRequest.length := by
  obtain ⟨more, hmore⟩ := Nat.exists_eq_add_of_lt hk
  have hattempts : attempts = (more + 1) + k := by omega
  rw [hattempts] at h ⊢
  refine ⟨more, run_handshake_of_quiet h hquiet, h.turn.mono ?_ ?_⟩
  all_goals exact Nat.le_mul_of_pos_left _ (Nat.succ_pos more)

/-- In an attempt that is answered the handshake succeeds, and it reads up to the end of the
response. -/
theorem run_handshake_of_answeredIn {k : Nat} (hk : k < attempts) (hanswered : l.AnsweredIn k) :
    ∃ noise rest l', (handshake attempts).run l = (.ok (), l') ∧
      l'.sent.toList = l.sent.toList ++ knocks (k + 1) ∧
      (l.attempt k).heard = noise ++ handshakeResponse ++ rest ∧
      ¬ handshakeResponse <:+: noise ++ handshakeResponse.dropLast ∧
      l.arriving = l.heardBefore k ++ noise ++ handshakeResponse ++ l'.arriving ∧
      l'.window = { l.attempt k with heard := rest } := by
  obtain ⟨hanswers, hquiet⟩ := hanswered
  obtain ⟨more, hrun, hcarries⟩ := exists_run_handshake_eq h hk hquiet
  obtain ⟨noise, rest, l', hheard, hfirst, hexpect, hwindow, hsame, harriving⟩ :=
    expect_of_answers hanswers
  obtain ⟨hsent, hbefore⟩ := l.turn_keeps k
  obtain ⟨hknock, hstill⟩ := Line.wroteSlowly_keeps handshakeRequest (l.turn k)
  refine ⟨noise, rest, l', hrun.trans (run_handshake_of_heard hcarries hexpect), ?_, hheard, hfirst,
    ?_, hwindow⟩
  · rw [hsame, Line.knocked, hknock, hsent, knocks_succ, List.append_assoc]
  · rw [hbefore, ← hstill, ← Line.knocked, harriving]
    simp only [List.append_assoc]

theorem ok_of_answeredIn {k : Nat} (hk : k < attempts) (hanswered : l.AnsweredIn k) :
    ((handshake attempts).run l).1 = .ok () ∧
      ((handshake attempts).run l).2.sent.toList = l.sent.toList ++ knocks (k + 1) := by
  obtain ⟨noise, rest, l', hrun, hsent, -⟩ := run_handshake_of_answeredIn h hk hanswered
  rw [hrun]
  exact ⟨rfl, hsent⟩

/-- In an attempt in which the line fails first the handshake fails as the line did. -/
theorem error_of_failure {k : Nat} {e : IoKind} (hk : k < attempts)
    (hquiet : ∀ j < k, (l.attempt j).Quiet) (hnone : ¬ (l.attempt k).Answers)
    (hfailure : (l.attempt k).failure = some e) :
    ((handshake attempts).run l).1 = .error (.link (.kind e)) ∧
      ((handshake attempts).run l).2.sent.toList = l.sent.toList ++ knocks (k + 1) := by
  obtain ⟨more, hrun, hcarries⟩ := exists_run_handshake_eq h hk hquiet
  have hexpect := expect_of_not_answers hnone
  rw [show (l.turn k).knocked.window.failure = some e from hfailure] at hexpect
  rw [hrun, run_handshake_of_failed hcarries hexpect]
  exact ⟨rfl, (l.turn_keeps (k + 1)).1⟩

/-- When nothing happens in any attempt the handshake gives up. -/
theorem run_handshake_of_all_quiet (hquiet : ∀ j < attempts, (l.attempt j).Quiet) :
    (handshake attempts).run l = (.error .handshakeFailed, l.turn attempts) := by
  rw [← Nat.zero_add attempts] at h
  have hrun := run_handshake_of_quiet h hquiet
  rw [Nat.zero_add] at hrun
  exact hrun

theorem exists_answeredIn_of_ok (hok : ((handshake attempts).run l).1 = .ok ()) :
    ∃ k < attempts, l.AnsweredIn k := by
  rcases attempts_trichotomy l attempts with hk | ⟨k, hk, e, hquiet, hnone, hfailure⟩ | hquiet
  · exact hk
  · rw [(error_of_failure h hk hquiet hnone hfailure).1] at hok
    cases hok
  · rw [run_handshake_of_all_quiet h hquiet] at hok
    cases hok

end

/-- How a handshake with a number of attempts goes on a line. -/
structure GoesByWindows (attempts : Nat) (l : Line) (result : Except Failure Unit) (l' : Line) :
    Prop where
  ok_iff : result = .ok () ↔ ∃ k < attempts, l.AnsweredIn k
  /-- The attempt that succeeds is told from the number of start sequences. -/
  ok_in_iff : ∀ k, result = .ok () ∧ l'.sent.toList = l.sent.toList ++ knocks (k + 1) ↔
    k < attempts ∧ l.AnsweredIn k
  /-- What is read is what was heard in the attempts before and everything up to the end of the first
  response, and what comes behind it in the window is still to come. -/
  reads : ∀ k < attempts, l.AnsweredIn k →
    ∃ noise rest, (l.attempt k).heard = noise ++ handshakeResponse ++ rest ∧
      ¬ handshakeResponse <:+: noise ++ handshakeResponse.dropLast ∧
      l.arriving = l.heardBefore k ++ noise ++ handshakeResponse ++ l'.arriving ∧
      l'.window = { l.attempt k with heard := rest }
  fails : ∀ k < attempts, ∀ e, (∀ j < k, (l.attempt j).Quiet) → ¬ (l.attempt k).Answers →
    (l.attempt k).failure = some e →
    result = .error (.link (.kind e)) ∧ l'.sent.toList = l.sent.toList ++ knocks (k + 1)
  givesUp : (∀ k < attempts, ¬ l.AnsweredIn k ∧ (l.attempt k).failure = none) →
    result = .error .handshakeFailed ∧ l'.sent.toList = l.sent.toList ++ knocks attempts

/-- On a line that takes what is written, a handshake succeeds in the first attempt in which the
response is heard before the line falls silent or fails. -/
theorem handshake_goesByWindows (attempts : Nat) {l : Line}
    (h : l.Carries (attempts * handshakeRequest.length) (attempts * handshakeRequest.length)) :
    GoesByWindows attempts l ((handshake attempts).run l).1 ((handshake attempts).run l).2 where
  ok_iff := ⟨exists_answeredIn_of_ok h, fun ⟨_, hk, hanswered⟩ => (ok_of_answeredIn h hk hanswered).1⟩
  ok_in_iff := by
    refine fun k => ⟨fun ⟨hok, hsent⟩ => ?_, fun ⟨hk, hanswered⟩ => ok_of_answeredIn h hk hanswered⟩
    obtain ⟨j, hj, hanswered⟩ := exists_answeredIn_of_ok h hok
    have hknocks : knocks (k + 1) = knocks (j + 1) :=
      List.append_cancel_left (hsent.symm.trans (ok_of_answeredIn h hj hanswered).2)
    obtain rfl : k = j := Nat.succ.inj (knocks_inj hknocks)
    exact ⟨hj, hanswered⟩
  reads := by
    intro k hk hanswered
    obtain ⟨noise, rest, l', hrun, -, hheard, hfirst, harriving, hwindow⟩ :=
      run_handshake_of_answeredIn h hk hanswered
    rw [hrun]
    exact ⟨noise, rest, hheard, hfirst, harriving, hwindow⟩
  fails := fun _ hk _ hquiet hnone hfailure => error_of_failure h hk hquiet hnone hfailure
  givesUp := by
    intro hnone
    have hquiet : ∀ k < attempts, (l.attempt k).Quiet := by
      rcases attempts_trichotomy l attempts with ⟨k, hk, hanswered⟩ | ⟨k, hk, e, -, -, he⟩ | hquiet
      · exact absurd hanswered (hnone k hk).1
      · rw [(hnone k hk).2] at he
        cases he
      · exact hquiet
    rw [run_handshake_of_all_quiet h hquiet]
    exact ⟨rfl, (l.turn_keeps attempts).1⟩

/-- A line that stays silent for a while, and on which then a response arrives behind a broken one. -/
def lateAnswer : Line :=
  .ofEvents (.silence 600 :: ([0x40, 0x4F, 0x40, 0x4F, 0x4B, 0x0A, 0x46].map LineEvent.byte))
    none none none none

/-- The second of three attempts succeeds, and the byte behind the response is still to be read. -/
theorem handshake_late_answer :
    lateAnswer.Carries (3 * handshakeRequest.length) (3 * handshakeRequest.length) ∧
      lateAnswer.AnsweredIn 1 ∧ ((handshake 3).run lateAnswer).1 = .ok () ∧
      ((handshake 3).run lateAnswer).2.sent.toList = knocks 2 ∧
      ((handshake 3).run lateAnswer).2.arriving = [0x46] := by
  have hcarries : lateAnswer.Carries (3 * handshakeRequest.length) (3 * handshakeRequest.length) :=
    ⟨nofun, nofun, nofun⟩
  have hfirst : (lateAnswer.attempt 0).failure = none ∧ (lateAnswer.attempt 0).heard = [] := by
    decide +kernel
  have hsecond : (lateAnswer.attempt 1).heard = [0x40, 0x4F] ++ handshakeResponse ++ [0x46] := by
    decide +kernel
  have hanswered : lateAnswer.AnsweredIn 1 := by
    refine ⟨⟨_, _, hsecond.symm⟩, fun j hj => ?_⟩
    obtain rfl := Nat.lt_one_iff.1 hj
    refine ⟨hfirst.1, ?_⟩
    rw [Window.Answers, hfirst.2]
    decide
  have hwindows := handshake_goesByWindows 3 hcarries
  obtain ⟨hok, hsent⟩ := (hwindows.ok_in_iff 1).2 ⟨by decide, hanswered⟩
  exact ⟨hcarries, hanswered, hok, hsent, by decide +kernel⟩

end SignedBoot.Host
